import FOmega.Parse
import FOmega.Scope.Check
import FOmega.Scope.Collect
import FOmega.Scope.Rename

/-!
# Sessions

A session works on several sources with one supply, so that no unique is ever given twice. It keeps
trees and scope infos under names for later steps, and one record of everything registered in it.
-/

namespace FOmega

namespace Session

/-! ## Steps and answers -/

/-- What can be kept under a name. -/
inductive Item where
  | tree (tree : Tree)
  | info (info : ScopeInfo)

/-- How the nodes of a renamed tree are to be marked. -/
inductive Marking where
  | tagging
  | erasing
  | recording
  | answering (onBinder onFree : ScopedName → Mark)

/-- What a session can be asked to do. Names stand for what was kept under them. -/
inductive Command where
  | draw (count : Nat)
  | newSupply
  | parse (rule : Rule) (maxDepth : Nat) (label src : String)
  | build (tree : Tree)
  | rename (tree : String) (marking : Marking)
  | collect (tree : String)
  | report (info : String)
  | check (info : String)
  | root (tree : String)
  | equal (left right : String)
  | ofList (entries : List ScopeEntry)
  | singletons (entries : List ScopeEntry)
  | extend (info : Option String) (entries : List ScopeEntry)
  | combine (infos : List String)
  | sum (infos : List String)
  | count (info : String) (entry : ScopeEntry)

/-- What a session answers. -/
inductive Answer where
  | uniques (uniques : List Nat)
  | done
  | value (value : Value)
  | failed (report : Report)
  | renamed (tree : Tree) (calls : List (Role × ScopedName)) (record : Registrar.Record)
  | info (info : ScopeInfo)
  | entries (entries : List ScopeEntry)
  | verdict (result : Except ScopeError Unit)
  | root (span : Option Span) (name : Option ScopedName)
  | equal (result : Bool)
  | count (count : Nat)
  | unknown

/-- What an answer leaves to be kept. -/
def Answer.item? : Answer → Option Item
  | .value (.tree t) => some (.tree t)
  | .renamed t _ _ => some (.tree t)
  | .info i => some (.info i)
  | _ => none

end Session

/-- The supply, the record of registered names and the kept items, the latest first. -/
structure Session where
  supply : Supply
  record : Registrar.Record
  items : List (String × Session.Item)

namespace Session

/-- A session in which nothing has happened. -/
def start : Session :=
  ⟨.empty, .empty, []⟩

/-- The tree kept under a name. -/
def tree? (s : Session) (name : String) : Option Tree :=
  match s.items.lookup name with
  | some (.tree tree) => some tree
  | _ => none

/-- The scope info kept under a name. -/
def info? (s : Session) (name : String) : Option ScopeInfo :=
  match s.items.lookup name with
  | some (.info info) => some info
  | _ => none

/-- The answer to a command, the session after it, and what was noted. -/
structure Outcome where
  answer : Answer
  session : Session
  log : List LogRecord

/-- An answer that changes nothing and notes nothing. -/
def reply (s : Session) (answer : Answer) : Outcome :=
  ⟨answer, s, []⟩

/-- Reads a source with the session's supply. -/
def parse (s : Session) (rule : Rule) (maxDepth : Nat) (label src : String) : Outcome :=
  let parsed := parseWith maxDepth s.supply (fun room => rule.run room) label src
  let answer : Answer :=
    match parsed.result with
    | .ok value => .value value
    | .error report => .failed report
  ⟨answer, { s with supply := parsed.supply }, parsed.log⟩

/-- Renames a tree with the session's supply. -/
def rename (s : Session) (tree : Tree) : Marking → Outcome
  | .tagging =>
    let out := tree.renameWith .tagging s.supply ()
    ⟨.renamed out.tree [] s.record, { s with supply := out.supply }, out.log⟩
  | .erasing =>
    let out := tree.renameWith .erasing s.supply ()
    ⟨.renamed out.tree [] s.record, { s with supply := out.supply }, out.log⟩
  | .recording =>
    let out := tree.renameWith .recording s.supply s.record
    ⟨.renamed out.tree [] out.memory, { s with supply := out.supply, record := out.memory },
      out.log⟩
  | .answering onBinder onFree =>
    let out := tree.renameWith (.answering onBinder onFree) s.supply []
    ⟨.renamed out.tree out.memory s.record, { s with supply := out.supply }, out.log⟩

/-- Whether two kept items of one sort are equal. -/
def equal? (s : Session) (left right : String) : Option Bool :=
  match s.items.lookup left, s.items.lookup right with
  | some (.tree a), some (.tree b) => some (a == b)
  | some (.info a), some (.info b) => some (a == b)
  | _, _ => none

/-- The infos kept under names, if each name has one. -/
def infos? (s : Session) (names : List String) : Option (List ScopeInfo) :=
  names.mapM s.info?

/-- Runs one command. -/
def run (s : Session) : Command → Outcome
  | .draw count =>
    let (uniques, supply) := s.supply.take count
    ⟨.uniques uniques, { s with supply := supply }, []⟩
  | .newSupply => ⟨.done, { s with supply := .empty }, []⟩
  | .parse rule maxDepth label src => s.parse rule maxDepth label src
  | .build tree => s.reply (.value (.tree tree))
  | .rename tree marking =>
    match s.tree? tree with
    | some tree => s.rename tree marking
    | none => s.reply .unknown
  | .collect tree =>
    match s.tree? tree with
    | some tree => ⟨.info tree.scopeInfo, s, tree.scopeInfo.log⟩
    | none => s.reply .unknown
  | .report info => s.reply ((s.info? info).elim .unknown fun info => .entries info.toList)
  | .check info => s.reply ((s.info? info).elim .unknown fun info => .verdict info.check)
  | .root tree =>
    s.reply ((s.tree? tree).elim .unknown fun tree => .root tree.mark.span? tree.mark.name?)
  | .equal left right => s.reply ((s.equal? left right).elim .unknown .equal)
  | .ofList entries => s.reply (.info (.ofList entries))
  | .singletons entries => s.reply (.info (.sum (entries.map .singleton)))
  | .extend none entries => s.reply (.info (ScopeInfo.empty.extend entries))
  | .extend (some info) entries =>
    s.reply ((s.info? info).elim .unknown fun info => .info (info.extend entries))
  | .combine infos =>
    match s.infos? infos with
    | some (info :: infos) => s.reply (.info (infos.foldl ScopeInfo.combine info))
    | some [] => s.reply (.info .empty)
    | none => s.reply .unknown
  | .sum infos => s.reply ((s.infos? infos).elim .unknown fun infos => .info (.sum infos))
  | .count info entry =>
    s.reply ((s.info? info).elim .unknown fun info => .count (info.count entry))

/-- A command, and the name under which its tree or info is to be kept. -/
structure Step where
  command : Command
  keepAs : Option String

/-- Keeps what an answer leaves. -/
def keep (s : Session) (name : Option String) (answer : Answer) : Session :=
  match name, answer.item? with
  | some name, some item => { s with items := (name, item) :: s.items }
  | _, _ => s

/-- Runs one step. -/
def step (s : Session) (step : Step) : Outcome :=
  let out := s.run step.command
  { out with session := out.session.keep step.keepAs out.answer }

/-- Runs steps one after the other. -/
def runAll (s : Session) : List Step → List Outcome
  | [] => []
  | step :: steps =>
    let out := s.step step
    out :: runAll out.session steps

end Session

end FOmega
