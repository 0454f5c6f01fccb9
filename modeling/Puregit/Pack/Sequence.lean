import Puregit.Pack.RoundTrip

/-! # Packs of any sequence of additions

A writer is filled by calls of `add` and `addExternalBase` in any order.  Where no two of
the objects passed to it have one id, what is queued is what was added, each object once,
in the order of first addition, and the finished pack reads back as exactly that.
-/
namespace Puregit
namespace PackWriter

/-- A call on a writer. -/
inductive Op where
  | add (ty : ObjectType) (payload : Bytes)
  | addExternalBase (ty : ObjectType) (payload : Bytes)

namespace Op

/-- The object passed to a call. -/
def object : Op → ObjectType × Bytes
  | add ty payload => (ty, payload)
  | addExternalBase ty payload => (ty, payload)

/-- What a call makes of a writer. -/
def apply (w : PackWriter) : Op → PackWriter
  | add ty payload => w.add ty payload
  | addExternalBase ty payload => w.addExternalBase ty payload

/-- The object a call adds to the pack. -/
def added? : Op → Option (ObjectType × Bytes)
  | add ty payload => some (ty, payload)
  | addExternalBase _ _ => none

/-- The object a call registers as held by the receiver. -/
def external? : Op → Option (ObjectType × Bytes)
  | add _ _ => none
  | addExternalBase ty payload => some (ty, payload)

end Op

/-- The writer after some calls. -/
def run (h : Hasher) (algo : HashAlgo) (ops : List Op) : PackWriter :=
  ops.foldl Op.apply (new h algo)

/-- The objects queued by some calls, each once, in the order of first addition. -/
def queued (ops : List Op) : List (ObjectType × Bytes) := (ops.filterMap Op.added?).eraseDups

/-- The objects some calls register as held by the receiver. -/
def external (ops : List Op) : List (ObjectType × Bytes) :=
  (ops.filterMap Op.external?).eraseDups

variable {h : Hasher} {algo : HashAlgo}

/-- An object under its id. -/
def entryOf (h : Hasher) (algo : HashAlgo) (o : ObjectType × Bytes) : PackEntry :=
  ⟨hashObject h algo o.1 o.2, o.1, o.2⟩

/-- No two of some objects have one id. -/
def CollisionFree (h : Hasher) (algo : HashAlgo) (objects : List (ObjectType × Bytes)) : Prop :=
  ∀ o ∈ objects, ∀ o' ∈ objects, hashObject h algo o.1 o.2 = hashObject h algo o'.1 o'.2 → o = o'

theorem run_snoc (ops : List Op) (op : Op) : run h algo (ops ++ [op]) =
    Op.apply (run h algo ops) op := by
  rw [run, List.foldl_append]
  rfl

theorem run_hasher (h : Hasher) (algo : HashAlgo) (ops : List Op) :
    (run h algo ops).hasher = h ∧ (run h algo ops).algo = algo := by
  induction ops using List.reverseRecOn with
  | nil => exact ⟨rfl, rfl⟩
  | append_singleton ops op ih =>
    rw [run_snoc]
    cases op <;> exact ih

/-- Queueing an object is queueing it among the objects so far. -/
theorem addEntry_entryOf {objects : List (ObjectType × Bytes)} {o : ObjectType × Bytes}
    (hc : CollisionFree h algo (o :: objects)) :
    addEntry (objects.eraseDups.map (entryOf h algo)) (entryOf h algo o) =
      (objects ++ [o]).eraseDups.map (entryOf h algo) := by
  have hany : (objects.eraseDups.map (entryOf h algo)).any (·.id == (entryOf h algo o).id) = true ↔
      o ∈ objects := by
    rw [List.any_eq_true]
    constructor
    · rintro ⟨e, he, hid⟩
      obtain ⟨o', ho', rfl⟩ := List.mem_map.mp he
      rw [List.mem_eraseDups] at ho'
      have heq := hc o' (List.mem_cons_of_mem o ho') o List.mem_cons_self (beq_iff_eq.mp hid)
      rwa [← heq]
    · intro ho
      exact ⟨_, List.mem_map_of_mem (List.mem_eraseDups.mpr ho), beq_self_eq_true _⟩
  rw [addEntry, List.eraseDups_append]
  by_cases ho : o ∈ objects
  · rw [if_pos (hany.mpr ho), List.cons_removeAll]
    simp [ho]
  · rw [if_neg fun h => ho (hany.mp h), List.cons_removeAll]
    simp [ho, List.eraseDups_cons]

theorem CollisionFree.mono {objects objects' : List (ObjectType × Bytes)}
    (hc : CollisionFree h algo objects) (hsub : ∀ o ∈ objects', o ∈ objects) :
    CollisionFree h algo objects' := by
  intro o ho o' ho'
  exact hc o (hsub o ho) o' (hsub o' ho')

theorem mem_added {ops : List Op} {o : ObjectType × Bytes} (ho : o ∈ ops.filterMap Op.added?) :
    o ∈ ops.map Op.object := by
  obtain ⟨op, hop, h⟩ := List.mem_filterMap.mp ho
  cases op with
  | add ty payload =>
    cases h
    exact List.mem_map.mpr ⟨_, hop, rfl⟩
  | addExternalBase ty payload => cases h

theorem mem_external {ops : List Op} {o : ObjectType × Bytes}
    (ho : o ∈ ops.filterMap Op.external?) : o ∈ ops.map Op.object := by
  obtain ⟨op, hop, h⟩ := List.mem_filterMap.mp ho
  cases op with
  | add ty payload => cases h
  | addExternalBase ty payload =>
    cases h
    exact List.mem_map.mpr ⟨_, hop, rfl⟩

/-- **What a writer holds after some calls.** -/
theorem run_entries {ops : List Op} (hc : CollisionFree h algo (ops.map Op.object)) :
    (run h algo ops).entries = (queued ops).map (entryOf h algo) ∧
      (run h algo ops).externalBases = (external ops).map (entryOf h algo) := by
  induction ops using List.reverseRecOn with
  | nil => exact ⟨rfl, rfl⟩
  | append_singleton ops op ih =>
    obtain ⟨hentries, hexternal⟩ := ih (hc.mono fun o ho => by
      rw [List.map_append]
      exact List.mem_append_left _ ho)
    obtain ⟨hhasher, halgo⟩ := run_hasher h algo ops
    have hnew : op.object ∈ (ops ++ [op]).map Op.object :=
      List.mem_map_of_mem (List.mem_append_right _ List.mem_cons_self)
    have hold : ∀ o ∈ ops.map Op.object, o ∈ (ops ++ [op]).map Op.object := by
      intro o ho
      rw [List.map_append]
      exact List.mem_append_left _ ho
    rw [run_snoc]
    cases op with
    | add ty payload =>
      have hfree : CollisionFree h algo ((ty, payload) :: ops.filterMap Op.added?) := by
        apply hc.mono
        intro o ho
        rcases List.mem_cons.mp ho with rfl | ho
        · exact hnew
        · exact hold o (mem_added ho)
      have hadd := addEntry_entryOf hfree
      constructor
      · show addEntry (run h algo ops).entries ⟨hashObject (run h algo ops).hasher
          (run h algo ops).algo ty payload, ty, payload⟩ = _
        rw [hhasher, halgo, hentries, queued, queued, List.filterMap_append]
        exact hadd
      · show (run h algo ops).externalBases = _
        rw [hexternal, external, external, List.filterMap_append]
        rw [show [Op.add ty payload].filterMap Op.external? = [] from rfl, List.append_nil]
    | addExternalBase ty payload =>
      have hfree : CollisionFree h algo ((ty, payload) :: ops.filterMap Op.external?) := by
        apply hc.mono
        intro o ho
        rcases List.mem_cons.mp ho with rfl | ho
        · exact hnew
        · exact hold o (mem_external ho)
      have hadd := addEntry_entryOf hfree
      constructor
      · show (run h algo ops).entries = _
        rw [hentries, queued, queued, List.filterMap_append]
        rw [show [Op.addExternalBase ty payload].filterMap Op.added? = [] from rfl, List.append_nil]
      · show addEntry (run h algo ops).externalBases ⟨hashObject (run h algo ops).hasher
          (run h algo ops).algo ty payload, ty, payload⟩ = _
        rw [hhasher, halgo, hexternal, external, external, List.filterMap_append]
        exact hadd

theorem mem_queued {ops : List Op} {o : ObjectType × Bytes} (ho : o ∈ queued ops) :
    o ∈ ops.map Op.object :=
  mem_added (List.mem_eraseDups.mp ho)

theorem mem_external_object {ops : List Op} {o : ObjectType × Bytes} (ho : o ∈ external ops) :
    o ∈ ops.map Op.object :=
  mem_external (List.mem_eraseDups.mp ho)

theorem run_valid (h : Hasher) (algo : HashAlgo) (ops : List Op) : (run h algo ops).Valid := by
  induction ops using List.reverseRecOn with
  | nil => exact valid_new h algo
  | append_singleton ops op ih =>
    rw [run_snoc]
    cases op with
    | add ty payload => exact ih.add ty payload
    | addExternalBase ty payload => exact ih.addExternalBase ty payload

/-- **A pack reads back as what was queued.**  Whatever calls filled a writer, if `finish`
succeeds, the pack read with a resolver that returns every registered external base is the
queued objects in the order they were added, each with the id, type and payload it was added
with, and the reader stops at the end of the pack whatever follows it.  Lengths of byte
strings are below `2 ^ 64`. -/
theorem explode_run {z : Zlib} (hz : z.Exact) {resolve : ExternalResolver} {ops : List Op}
    (hc : CollisionFree h algo (ops.map Op.object))
    (hsize : ∀ op ∈ ops, op.object.2.length < 2 ^ 64) (hcount : (queued ops).length < 2 ^ 32)
    (hres : ∀ o ∈ external ops, resolve (hashObject h algo o.1 o.2) = .ok o)
    {out : PackOutput} (hout : (run h algo ops).finish z = .ok out)
    (hlen : out.pack.length < 2 ^ 64) :
    explodePack z h out.pack algo resolve =
        .ok ((queued ops).map fun o => (hashObject h algo o.1 o.2, o.1, o.2)) ∧
      ∀ rest, explodePackPrefix z h (out.pack ++ rest) algo resolve =
        .ok ((queued ops).map fun o => (hashObject h algo o.1 o.2, o.1, o.2), out.pack.length) := by
  obtain ⟨hentries, hexternal⟩ := run_entries hc
  obtain ⟨hhasher, halgo⟩ := run_hasher h algo ops
  have hresolve : ∀ b ∈ (run h algo ops).externalBases, resolve b.id = .ok (b.ty, b.payload) := by
    intro b hb
    rw [hexternal] at hb
    obtain ⟨o, ho, rfl⟩ := List.mem_map.mp hb
    exact hres o ho
  have hhonest : Honest (run h algo ops) resolve := by
    constructor
    · intro b hb e he hid
      rw [hexternal] at hb
      rw [hentries] at he
      obtain ⟨o, ho, rfl⟩ := List.mem_map.mp hb
      obtain ⟨o', ho', rfl⟩ := List.mem_map.mp he
      have heq := hc o' (mem_queued ho') o (mem_external_object ho) hid
      rw [heq]
      exact ⟨rfl, rfl⟩
    · intro b hb r hr
      rw [hresolve b hb] at hr
      exact (Except.ok.inj hr).symm
  have hsizes : ∀ e ∈ (run h algo ops).entries, e.payload.length < 2 ^ 64 := by
    intro e he
    rw [hentries] at he
    obtain ⟨o, ho, rfl⟩ := List.mem_map.mp he
    obtain ⟨op, hop, rfl⟩ := List.mem_map.mp (mem_queued ho)
    exact hsize op hop
  have hprefix : ∀ rest, explodePackPrefix z h (out.pack ++ rest) algo resolve =
      .ok ((queued ops).map fun o => (hashObject h algo o.1 o.2, o.1, o.2), out.pack.length) := by
    intro rest
    obtain ⟨hvalue, hiff⟩ := explodePackPrefix_finish hz (run_valid h algo ops) hhonest hsizes
      (by rw [hentries, List.length_map]; exact hcount) hout hlen rest
    rw [hhasher, halgo] at hvalue hiff
    obtain ⟨r, hr⟩ := hiff.mpr (resolvable_of_external fun b hb => ⟨_, hresolve b hb⟩)
    rw [hr, hvalue r hr, hentries, List.map_map]
    rfl
  refine ⟨?_, hprefix⟩
  have hwhole := hprefix []
  rw [List.append_nil] at hwhole
  rw [explodePack, hwhole]
  rfl

end PackWriter

/-! ## A thin pack -/

namespace PackSample
open PackWriter

/-- A blob. -/
def fox : Bytes := bytes "the quick brown fox jumps over the lazy dog"

/-- A blob like it, written as a delta against it. -/
def foxCat : Bytes := bytes "the quick brown fox jumps over the lazy cat"

/-- A blob that only the receiver has. -/
def held : Bytes := bytes "a file that only the receiver has, of some length"

/-- A blob like it, written as a delta against it. -/
def sent : Bytes := bytes "a file that only the receiver had, of some length"

/-- The calls that make the pack. -/
def calls : List Op :=
  [.add .blob fox, .addExternalBase .blob held, .add .blob foxCat, .add .blob sent]

/-- The objects outside of the pack. -/
def receiver : ExternalResolver := fun id =>
  if id = hashObject Hasher.sha .sha1 .blob held then .ok (.blob, held)
  else .error (objectNotFound id)

/-- The first byte of each id. -/
theorem heads : (calls.map Op.object).map
    (fun o => (hashObject Hasher.sha .sha1 o.1 o.2).bytes.head?) =
    [some 0x51, some 0x39, some 0x61, some 0x4b] := by
  decide +kernel

theorem collisionFree_of_heads {h : Hasher} {algo : HashAlgo}
    {objects : List (ObjectType × Bytes)}
    (hheads : (objects.map fun o => (hashObject h algo o.1 o.2).bytes.head?).Nodup) :
    CollisionFree h algo objects := by
  intro o ho o' ho' hid
  exact List.inj_on_of_nodup_map hheads ho ho' (by rw [hid])

theorem calls_packLength : ((run Hasher.sha .sha1 calls).finish Zlib.stored).map
    (·.pack.length) = .ok 150 := by
  decide +kernel

theorem calls_read_back : ∃ out, (run Hasher.sha .sha1 calls).finish Zlib.stored = .ok out ∧
    explodePack Zlib.stored Hasher.sha out.pack .sha1 receiver =
      .ok ((queued calls).map fun o => (hashObject Hasher.sha .sha1 o.1 o.2, o.1, o.2)) ∧
    ∀ rest, explodePackPrefix Zlib.stored Hasher.sha (out.pack ++ rest) .sha1 receiver =
      .ok ((queued calls).map fun o => (hashObject Hasher.sha .sha1 o.1 o.2, o.1, o.2),
        out.pack.length) := by
  obtain ⟨out, hout, hlen⟩ := except_map_ok.mp calls_packLength
  refine ⟨out, hout, explode_run Zlib.stored_exact (collisionFree_of_heads ?_) ?_ ?_ ?_ hout ?_⟩
  · rw [heads]
    decide
  · decide
  · decide
  · intro o ho
    have hexternal : external calls = [(.blob, held)] := by decide
    rw [hexternal, List.mem_singleton] at ho
    rw [ho, receiver, if_pos rfl]
  · rw [hlen]
    decide

end PackSample
end Puregit
