import Puregit.Graph

/-! # What writes do to a database

The laws of a database are told of the states `Held` and of writes of objects that `Fits`.  A store
in memory meets them in all states, for all objects (`MemoryOdb.contentStore`).  A store on disk
meets them where it serves the objects there are, for writes of these
(`CombinedOdb.contentAddressed`): it looks for a loose object before it looks into the packs, so
that a write could hide a packed object of the same id. -/
namespace Puregit
open ObjectDatabase

variable {D : Type} [ObjectDatabase D]

/-- Writes leave what can be read as it is. -/
structure KeepsObjects (Held : D → Prop) (Fits : ObjectType → Bytes → Prop) : Prop where
  held_write {odb : D} {ty : ObjectType} {payload : Bytes} : Held odb → Fits ty payload →
    Held (write odb ty payload).2
  algo_write {odb : D} {ty : ObjectType} {payload : Bytes} : Held odb → Fits ty payload →
    algo (write odb ty payload).2 = algo odb
  read_write {odb : D} {ty : ObjectType} {payload : Bytes} {id : ObjectId}
    {r : ObjectType × Bytes} :
    Held odb → Fits ty payload → read odb id = .ok r → read (write odb ty payload).2 id = .ok r

/-- Objects are named by their content, and nothing can be read after a write but what could be
before and what is written. -/
structure ContentAddressed (hasher : Hasher) (hashAlgo : HashAlgo) (Held : D → Prop)
    (Fits : ObjectType → Bytes → Prop) : Prop extends KeepsObjects Held Fits where
  algo_eq {odb : D} : Held odb → algo odb = hashAlgo
  written {odb : D} {ty : ObjectType} {payload : Bytes} {id : ObjectId} : Held odb →
    Fits ty payload →
    (write odb ty payload).1 = .ok id →
      id = hashObject hasher hashAlgo ty payload ∧ ∃ r, read (write odb ty payload).2 id = .ok r
  added {odb : D} {ty : ObjectType} {payload : Bytes} {id : ObjectId} {r : ObjectType × Bytes} :
    Held odb → Fits ty payload → read (write odb ty payload).2 id = .ok r →
      read odb id = .ok r ∨ id = hashObject hasher hashAlgo ty payload ∧ r = (ty, payload)

/-- Writes succeed as well. -/
structure ContentStore (hasher : Hasher) (hashAlgo : HashAlgo) (Held : D → Prop)
    (Fits : ObjectType → Bytes → Prop) : Prop extends ContentAddressed hasher hashAlgo
      Held Fits where
  succeeds {odb : D} {ty : ObjectType} {payload : Bytes} : Held odb → Fits ty payload →
    ∃ id, (write odb ty payload).1 = .ok id

section
variable {Held : D → Prop} {Fits Fits' : ObjectType → Bytes → Prop} {hasher : Hasher}
  {hashAlgo : HashAlgo}

/-- The laws hold of fewer writes. -/
theorem ContentAddressed.of_fits (h : ContentAddressed hasher hashAlgo Held Fits)
    (hfits : ∀ ty payload, Fits' ty payload → Fits ty payload) :
    ContentAddressed hasher hashAlgo Held Fits' where
  held_write hheld hfit := h.held_write hheld (hfits _ _ hfit)
  algo_write hheld hfit := h.algo_write hheld (hfits _ _ hfit)
  read_write hheld hfit := h.read_write hheld (hfits _ _ hfit)
  algo_eq := h.algo_eq
  written hheld hfit := h.written hheld (hfits _ _ hfit)
  added hheld hfit := h.added hheld (hfits _ _ hfit)

/-- **A write returns the name of what is written.** -/
theorem ContentStore.write_eq (h : ContentStore hasher hashAlgo Held Fits) {odb : D}
    {ty : ObjectType} {payload : Bytes} (hheld : Held odb) (hfit : Fits ty payload) :
    (write odb ty payload).1 = .ok (hashObject hasher hashAlgo ty payload) := by
  obtain ⟨id, hid⟩ := h.succeeds hheld hfit
  rw [hid, (h.written hheld hfit hid).1]

end

/-! ## The store in memory -/

namespace MemoryOdb

/-- A store that names objects in this way. -/
def Names (hasher : Hasher) (hashAlgo : HashAlgo) (odb : MemoryOdb) : Prop :=
  odb.hasher = hasher ∧ odb.algo = hashAlgo

theorem write_same (odb : MemoryOdb) (ty : ObjectType) (payload : Bytes) :
    (odb.write ty payload).2.hasher = odb.hasher ∧ (odb.write ty payload).2.algo = odb.algo := by
  rw [write]
  simp only
  split <;> exact ⟨rfl, rfl⟩

variable {odb : MemoryOdb} {ty : ObjectType} {payload : Bytes} {id : ObjectId}
  {r : ObjectType × Bytes}

/-- A write puts nothing in place of what is stored. -/
theorem get?_write_kept (h : odb.objects.get? id = some r) :
    (odb.write ty payload).2.objects.get? id = some r := by
  rw [write]
  simp only
  split
  · exact h
  · rename_i hnew
    rw [BTreeMap.get?_insert, if_neg]
    · exact h
    · rintro rfl
      exact hnew (BTreeMap.contains_iff.mpr ⟨r, h⟩)

theorem get?_write_named : ∃ r, (odb.write ty payload).2.objects.get?
    (hashObject odb.hasher odb.algo ty payload) = some r := by
  rw [write]
  simp only
  split
  · rename_i hold
    exact BTreeMap.contains_iff.mp hold
  · exact ⟨(ty, payload), by rw [BTreeMap.get?_insert, if_pos rfl]⟩

theorem get?_write_cases (h : (odb.write ty payload).2.objects.get? id = some r) :
    odb.objects.get? id = some r ∨ id = hashObject odb.hasher odb.algo ty payload ∧
      r = (ty, payload) := by
  rw [write] at h
  simp only at h
  split at h
  · exact Or.inl h
  · rw [BTreeMap.get?_insert] at h
    split at h
    · rename_i hid
      exact Or.inr ⟨hid, (Option.some.inj h).symm⟩
    · exact Or.inl h

/-- **A store in memory meets the laws**, whatever is written to it. -/
theorem contentStore (hasher : Hasher) (hashAlgo : HashAlgo) :
    ContentStore hasher hashAlgo (Names hasher hashAlgo) fun _ _ => True where
  held_write {odb ty payload} hnames _ := by
    obtain ⟨hhasher, halgo⟩ := write_same odb ty payload
    exact ⟨hhasher.trans hnames.1, halgo.trans hnames.2⟩
  algo_write {odb ty payload} _ _ := (write_same odb ty payload).2
  read_write _ _ h := read_eq_ok.mpr (get?_write_kept (read_eq_ok.mp h))
  algo_eq hnames := hnames.2
  written {odb ty payload id} hnames _ h := by
    cases h
    obtain ⟨r, hr⟩ := @get?_write_named odb ty payload
    exact ⟨by rw [hnames.1, hnames.2], r, read_eq_ok.mpr hr⟩
  added {odb ty payload id r} hnames _ h := by
    rw [← hnames.1, ← hnames.2]
    exact (get?_write_cases (read_eq_ok.mp h)).imp_left read_eq_ok.mpr
  succeeds _ _ := ⟨_, rfl⟩

end MemoryOdb
end Puregit
