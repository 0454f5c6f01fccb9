import Puregit.Object

/-! # Object-graph traversal

A commit leads to its tree and parents, a tree to its entries but for submodules, a tag
to its target.  `collectClosure` collects what the roots reach without entering an
excluded set; an absent object is collected but leads nowhere.  `objectsToSend` is the
closure of the wants without what the haves reach.

The walks are worklist loops over an explicit stack or queue.  What `collectClosure`
returns is characterised by reachability, `mem_collectClosure`; where reading an object
takes more than a database, as over HTTP, the loop runs in another monad.
-/
namespace Puregit
open ObjectDatabase

/-- The ids an object of a type refers to, submodules excepted. -/
def childIds (algo : HashAlgo) (ty : ObjectType) (payload : Bytes) :
    Except Error (List ObjectId) :=
  match ty with
  | .commit => (Commit.parse algo payload).map fun c => c.tree :: c.parents
  | .tree => (Tree.parse algo payload).map fun t =>
      (t.entries.filter fun e => e.mode != .gitlink).map TreeEntry.id
  | .tag => (Tag.parse algo payload).map fun t => [t.object]
  | .blob => .ok []

section Closure
variable {m : Type → Type} [Monad m]

/-- Visits one id: unless it is excluded or seen, it is collected and what it leads to
is pushed. -/
def collectVisit (children : ObjectId → m (List ObjectId)) (exclude seen : BTreeSet ObjectId)
    (id : ObjectId) : m (Option (BTreeSet ObjectId × List ObjectId)) :=
  if exclude.contains id || seen.contains id then pure none
  else do
    let cs ← children id
    let seen' := seen.insert id
    pure (some (seen', cs.filter fun c => !seen'.contains c && !exclude.contains c))

/-- Walks the graph from `roots`, never entering an id in `exclude`. -/
def collectClosure (children : ObjectId → m (List ObjectId)) (roots : List ObjectId)
    (exclude : BTreeSet ObjectId) : m (BTreeSet ObjectId) :=
  Worklist.run (collectVisit children exclude) Worklist.stack ObjectId.fuel BTreeSet.empty
    (roots.filter fun id => !exclude.contains id).reverse

/-- The closure of `wants` minus everything reachable from `haves`. -/
def objectsToSend (children : ObjectId → m (List ObjectId)) (wants haves : List ObjectId) :
    m (BTreeSet ObjectId) := do
  let exclude ← collectClosure children haves BTreeSet.empty
  collectClosure children wants exclude

end Closure

variable {D : Type} [ObjectDatabase D]

/-- Reads an object where an absent one is no error. -/
def readPresent (odb : D) (id : ObjectId) : Except Error (Option (ObjectType × Bytes)) :=
  match read odb id with
  | .ok r => .ok (some r)
  | .error e => if e.isNotFound then .ok none else .error e

/-- What an id leads to in a database; an absent object leads nowhere. -/
def objectChildren (odb : D) (id : ObjectId) : Except Error (List ObjectId) := do
  match ← readPresent odb id with
  | none => .ok []
  | some (ty, payload) => childIds (algo odb) ty payload

/-- Every id reachable from `roots` without entering `exclude`. -/
def reachableObjectsExcluding (odb : D) (roots : List ObjectId) (exclude : BTreeSet ObjectId) :
    Except Error (BTreeSet ObjectId) :=
  collectClosure (objectChildren odb) roots exclude

/-- Every id reachable from `roots`. -/
def reachableObjects (odb : D) (roots : List ObjectId) : Except Error (BTreeSet ObjectId) :=
  reachableObjectsExcluding odb roots BTreeSet.empty

/-- Reads and parses a commit; none if it is absent or something else. -/
def readCommit (odb : D) (id : ObjectId) : Except Error (Option Commit) :=
  match readTyped odb id .commit with
  | .ok payload => (Commit.parse (algo odb) payload).map some
  | .error (.notFound _) => .ok none
  | .error (.unexpectedType _ _) => .ok none
  | .error e => .error e

/-! ## Ancestry -/

/-- The ids queued so far, and whether the ancestor was met. -/
structure AncestorState where
  seen : BTreeSet ObjectId
  found : Bool

/-- The parents not seen yet, each once. -/
def freshParents (seen : BTreeSet ObjectId) : List ObjectId → List ObjectId
  | [] => []
  | p :: ps =>
    if seen.contains p then freshParents seen ps else p :: freshParents (seen.insert p) ps

/-- Visits one commit; nothing is done once the ancestor was met. -/
def ancestorVisit (odb : D) (ancestor : ObjectId) (st : AncestorState) (id : ObjectId) :
    Except Error (Option (AncestorState × List ObjectId)) :=
  if st.found then .ok none
  else do
    match ← readCommit odb id with
    | none => .ok none
    | some commit =>
      let fresh := freshParents st.seen commit.parents
      .ok (some (⟨st.seen.extend fresh, commit.parents.contains ancestor⟩, fresh))

/-- Whether `ancestor` is reachable from `descendant` by following commit parents. -/
def isAncestor (odb : D) (ancestor descendant : ObjectId) : Except Error Bool :=
  if ancestor = descendant then .ok true
  else (Worklist.run (ancestorVisit odb ancestor) Worklist.queue ObjectId.fuel
    ⟨BTreeSet.empty.insert descendant, false⟩ [descendant]).map (·.found)

/-! ## The depth-limited walk -/

/-- What a depth-limited walk has collected: the least depth each id was reached at, the
boundary, the trees to close over and the other objects. -/
structure ShallowState where
  best : BTreeMap ObjectId Nat
  shallow : BTreeSet ObjectId
  trees : List ObjectId
  commits : BTreeSet ObjectId

/-- Whether an id was reached at depth `d` or less. -/
def reachedWithin (best : BTreeMap ObjectId Nat) (id : ObjectId) (d : Nat) : Bool :=
  (best.get? id).any (· ≤ d)

/-- Visits one id at a depth. -/
def shallowVisit (odb : D) (depth : Nat) (alreadyShallow : BTreeSet ObjectId)
    (st : ShallowState) (item : ObjectId × Nat) :
    Except Error (Option (ShallowState × List (ObjectId × Nat))) :=
  let (id, d) := item
  if reachedWithin st.best id d then .ok none
  else do
    let st := { st with best := st.best.insert id d }
    match ← readPresent odb id with
    | none => .ok (some (st, []))
    | some (.commit, payload) =>
      let commit ← Commit.parse (algo odb) payload
      let st := { st with commits := st.commits.insert id, trees := st.trees ++ [commit.tree] }
      if d ≥ depth || alreadyShallow.contains id then
        if commit.parents.isEmpty then .ok (some (st, []))
        else .ok (some ({ st with shallow := st.shallow.insert id }, []))
      else .ok (some (st, commit.parents.map fun p => (p, d + 1)))
    | some (.tag, payload) =>
      let tag ← Tag.parse (algo odb) payload
      .ok (some ({ st with commits := st.commits.insert id }, [(tag.object, d)]))
    | some (.tree, _) => .ok (some ({ st with trees := st.trees ++ [id] }, []))
    | some (.blob, _) => .ok (some ({ st with commits := st.commits.insert id }, []))

/-- The result of a depth-limited traversal. -/
structure ShallowResult where
  objects : BTreeSet ObjectId
  shallow : BTreeSet ObjectId

/-- Fuel for a walk that may reach every id again at each lesser depth. -/
def depthFuel (depth : Nat) : Nat := ObjectId.count * (depth + 1) + 1

/-- The objects of a history truncated to `depth` commits a want; a commit in
`alreadyShallow` counts as having no parents. -/
def shallowObjectsToSend (odb : D) (wants : List ObjectId) (depth : Nat)
    (alreadyShallow : BTreeSet ObjectId) : Except Error ShallowResult := do
  let depth := max depth 1
  let st ← Worklist.run (shallowVisit odb depth alreadyShallow) Worklist.queue (depthFuel depth)
    ⟨BTreeMap.empty, BTreeSet.empty, [], BTreeSet.empty⟩ (wants.map fun w => (w, 1))
  let objects ← reachableObjects odb st.trees
  .ok ⟨objects.extend st.commits.toList, st.shallow⟩

end Puregit
