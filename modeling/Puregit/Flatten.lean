import Puregit.Object

/-! # Flattened trees

`flattenTree` reads a tree and the trees below it into a map from slash-joined paths to
mode and id.  The recursion is on the depth of the stack, which the database bounds
nowhere: with too little of it there is no result, and with a tree that contains itself
there never is one.
-/
namespace Puregit
open ObjectDatabase

/-- A flattened tree. -/
abbrev FlatMap := BTreeMap Bytes (FileMode × ObjectId)

variable {D : Type} [ObjectDatabase D]

/-- A result or an error, as a computation that returns. -/
def evalExcept {α : Type} (x : Except Error α) : Eval Error α := ExceptT.mk (some x)

/-- The path of an entry of the tree at `dir`. -/
def joinPath (dir name : Bytes) : Bytes := if dir.isEmpty then name else dir ++ slash :: name

/-- Adds the entries of the tree `treeId` at `dir` to a map, with `depth` frames of
stack left. -/
def flattenInto (odb : D) : Nat → ObjectId → Bytes → FlatMap → Eval Error FlatMap
  | 0, _, _, _ => ExceptT.mk none
  | depth + 1, treeId, dir, out => do
      let payload ← evalExcept (readTyped odb treeId .tree)
      let tree ← evalExcept (Tree.parse (algo odb) payload)
      tree.entries.foldlM (fun out entry =>
        let path := joinPath dir entry.name
        if entry.mode = .tree then flattenInto odb depth entry.id path out
        else pure (out.insert path (entry.mode, entry.id))) out

/-- Flattens a tree. -/
def flattenTree (depth : Nat) (odb : D) (treeId : ObjectId) : Eval Error FlatMap :=
  flattenInto odb depth treeId [] BTreeMap.empty

theorem eval_bind_ok {α β : Type} {x : Eval Error α} {f : α → Eval Error β} {b : β} :
    (x >>= f).run = some (.ok b) ↔ ∃ a, x.run = some (.ok a) ∧ (f a).run = some (.ok b) := by
  rw [ExceptT.run_bind]
  constructor
  · intro h
    obtain ⟨r, hr, h⟩ := Option.bind_eq_some_iff.mp h
    cases r with
    | error e => cases h
    | ok a => exact ⟨a, hr, h⟩
  · rintro ⟨a, ha, h⟩
    rw [ha]
    exact h

theorem evalExcept_ok {α : Type} {x : Except Error α} {a : α} :
    (evalExcept x).run = some (.ok a) ↔ x = .ok a := Option.some_inj

/-- The tree that is flattened is read as the object it is. -/
theorem readObject_tree {odb : D} {id : ObjectId} {payload : Bytes} {t : Tree}
    (hread : readTyped odb id .tree = .ok payload)
    (hparse : Tree.parse (algo odb) payload = .ok t) :
    readObject odb id = .ok (.tree t) := by
  rw [readObject, readTyped_ok.mp hread]
  show (Tree.parse (algo odb) payload).map Object.tree = _
  rw [hparse]
  rfl

end Puregit
