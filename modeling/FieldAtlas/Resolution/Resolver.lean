import FieldAtlas.Atlas
import FieldAtlas.FieldSummary
import FieldAtlas.Interleaving
import FieldAtlas.Resolution.Diagnostics
import FieldAtlas.Tree.Outline

/-!
# `Resolver` — resolution with a memory of its failures

A resolver belongs to an atlas and keeps a log of its own.  A lookup that fails leaves a
diagnostic and answers nothing; an attempt answers with the failure and leaves no trace.  Every
other operation only reads.

A batch of lookups is shared out among workers.  Its results are in the order of its paths, but
its failures reach the log in the order in which the workers get there, and that is nobody's
choice: it comes with the request, as the turns that the workers took.

`Request` lists what a resolver can be asked, so that a run is a list of requests and a law about
runs is an induction on that list.
-/

namespace FieldAtlas

/-- A tree and a policy to resolve by, and the failures so far. -/
structure Resolver where
  tree : Tree
  policy : Policy
  log : Diagnostics

namespace Resolver

/-- A fresh resolver with an empty log. -/
def ofAtlas (a : Atlas) : Resolver :=
  ⟨a.tree, a.policy, { capacity := a.policy.maxDiagnostics }⟩

/-- What a lookup comes to, and the steps that it takes. -/
structure Job where
  found : Option Resolution
  steps : List LogStep

/-- The lookup of a path from a node; a failure goes to the log. -/
def job (r : Resolver) (start : Node) (path : String) : Job :=
  let resolved := resolveNoted r.policy start path
  let reports := resolved.notices.map LogStep.report
  match resolved.value with
  | .ok found => ⟨some found, reports⟩
  | .error failure => ⟨none, reports ++ Diagnostic.recording ⟨path, failure⟩⟩

/-- Does steps on the log. -/
def run (r : Resolver) (steps : List LogStep) : Noted Resolver := do
  return { r with log := ← r.log.run steps }

/-- One lookup, from beginning to end. -/
def lookup (r : Resolver) (start : Node) (path : String) :
    Noted (Option Resolution × Resolver) := do
  let job := r.job start path
  return (job.found, ← r.run job.steps)

/-- Lookups from the root, with a worker for each path.  A worker that sees to several paths, one
after the other, makes for turns of a special form. -/
def lookupAll (r : Resolver) (paths : List String) (turns : List Nat) :
    Noted (List (Option Resolution) × Resolver) := do
  let jobs := paths.map (r.job r.tree.rootNode)
  return (jobs.map (·.found), ← r.run (interleave (jobs.map (·.steps)) turns))

end Resolver

/-! ## What a target answers -/

namespace Target

/-- The comment of a field; a leaf of an enum answers with its name and comment. -/
def commentText? (t : Target) : Option String :=
  if t.entry.shape = .enumMarker then
    some (t.entry.name ++ "," ++ t.entry.comment.getD "")
  else t.entry.comment

/-- The type of the node above and the name of the target, as an enum constant is written. -/
def enumName? (t : Target) : Option String :=
  t.parent?.map fun parent => parent.entry.typeName ++ "::" ++ t.entry.name

end Target

/-! ## Requests -/

/-- A question to a resolver. -/
inductive Request where
  | resolve (path : String)
  | attempt (path : String)
  /-- Resolves paths from the root, by workers that take these turns. -/
  | batch (paths : List String) (turns : List Nat := [])
  /-- Whether two paths from the root resolve to the same, or both do not resolve. -/
  | same (first second : String)
  | diagnostics
  /-- Hands the diagnostics over and empties the log. -/
  | drain
  | find (path : String)
  | findComment (path : String)
  | findType (path : String)
  | findEnumName (path : String)
  /-- The summary of what a path from the root leads to. -/
  | summarize (path : String)
  | render (key : Option Int)
  /-- Renders the entry made up for `value` below the node. -/
  | renderKey (value : Int) (key : Option Int)
  | node
  | dump
  | leafType (field : String)
  | nameOf (id : Nat)
  | policy

/-- The answer to a request. -/
inductive Reply where
  /-- There is no node where the request was to start. -/
  | noNode
  | found (result : Option Resolution)
  | attempted (result : Except Failure Resolution)
  | foundAll (results : List (Option Resolution))
  | truth (value : Bool)
  | diagnostics (kept : List Diagnostic)
  | target (result : Option Target)
  | text (value : Option String)
  | summary (result : Except Failure (Except MissingKey FieldSummary))
  | paths (dotted flattened : Except MissingKey String)
  | sitePaths (site : Site) (dotted flattened : Except MissingKey String)
  | node (node : Node)
  | dump (value : Json)
  | policy (policy : Policy)

namespace Resolver

/-- Both results, or neither. -/
def sameResult : Option Resolution → Option Resolution → Bool
  | none, none => true
  | some a, some b => a.same b
  | _, _ => false

/-- A lookup that answers with something about the target. -/
def lookupText (r : Resolver) (start : Node) (path : String) (answer : Target → Option String) :
    Noted (Option String × Resolver) := do
  let (found, r) ← r.lookup start path
  return (found.bind fun res => answer res.target, r)

/-- Answers a request that starts at a given node. -/
def performAt (r : Resolver) (start : Node) : Request → Noted (Reply × Resolver)
  | .resolve path => do
    let (found, r) ← r.lookup start path
    return (.found found, r)
  | .attempt path => do
    return (.attempted (← resolveNoted r.policy start path), r)
  | .batch paths turns => do
    let (found, r) ← r.lookupAll paths turns
    return (.foundAll found, r)
  | .same first second => do
    let (a, r) ← r.lookup r.tree.rootNode first
    let (b, r) ← r.lookup r.tree.rootNode second
    return (.truth (sameResult a b), r)
  | .diagnostics => return (.diagnostics r.log.kept, r)
  | .drain => return (.diagnostics r.log.kept, { r with log := r.log.drain })
  | .find path => do
    let (found, r) ← r.lookup start path
    return (.target (found.map (·.target)), r)
  | .findComment path => do
    let (text, r) ← r.lookupText start path Target.commentText?
    return (.text text, r)
  | .findType path => do
    let (text, r) ← r.lookupText start path fun t => some t.entry.typeName
    return (.text text, r)
  | .findEnumName path => do
    let (text, r) ← r.lookupText start path Target.enumName?
    if text.isNone then Noted.report (.noEnumName path)
    return (.text text, r)
  | .summarize path => do
    match ← resolveNoted r.policy r.tree.rootNode path with
    | .ok found => return (.summary (.ok (← FieldSummary.ofResolution found)), r)
    | .error failure => return (.summary (.error failure), r)
  | .render key => do
    let dotted ← start.site.path .dotted key
    let flattened ← start.site.path .flattened key
    return (.paths dotted flattened, r)
  | .renderKey value key => do
    let site := start.siteOfKey value
    let dotted ← site.path .dotted key
    let flattened ← site.path .flattened key
    return (.sitePaths site dotted flattened, r)
  | .node => return (.node start, r)
  | .dump => return (.dump start.dump, r)
  | .leafType field => return (.text (start.entry.leafType? field), r)
  | .nameOf id => return (.text ((r.tree.node? id).map (·.name)), r)
  | .policy => return (.policy r.policy, r)

/-- Answers a request that starts at the node a list of child keys leads to. -/
def perform (r : Resolver) (start : List String) (q : Request) : Noted (Reply × Resolver) :=
  match r.tree.rootNode.walk? start with
  | none => ⟨(.noNode, r), []⟩
  | some n => r.performAt n q

end Resolver

/-! ## Sessions -/

/-- Resolvers over one atlas, each with its own log. -/
abbrev Session := List Resolver

namespace Session

/-- Fresh resolvers, as many as asked for. -/
def start (a : Atlas) (resolvers : Nat) : Session :=
  List.replicate resolvers (Resolver.ofAtlas a)

/-- Puts a request to one of the resolvers; `none` if there is no such resolver. -/
def perform (s : Session) (i : Nat) (start : List String) (q : Request) :
    Option (Noted (Reply × Session)) :=
  s[i]?.map fun r => (fun (reply, r) => (reply, s.set i r)) <$> r.perform start q

end Session

end FieldAtlas
