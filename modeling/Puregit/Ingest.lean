import Puregit.Pack.Reader
import Puregit.Porcelain

/-! # Ingesting a pack

A received pack is taken apart and its objects are written as loose objects; then the object
directory is opened again.  Behind a pack another may follow, of which deltas may rest on
objects of the first.

What was in the object directory stays there, and after an ingest that succeeds every object
of the packs is there too: `contains_reopened`, `ingestPacks_returns`.
-/
namespace Puregit
open ObjectDatabase

namespace CombinedOdb

/-- Writes decoded objects. -/
def storeObjects : List ExplodedObject → Exec CombinedOdb Error (List ObjectId)
  | [] => pure []
  | (_, ty, payload) :: objects => do
    let id ← put ty payload
    let ids ← storeObjects objects
    pure (id :: ids)

/-- Decodes the pack at the front of some data. -/
def explode (odb : CombinedOdb) (data : Bytes) : Except Error (List ExplodedObject × Nat) :=
  explodePackPrefix odb.loose.zlib odb.loose.hasher data odb.loose.algo odb.read

/-- Stores the objects of at most so many packs. -/
def ingestPacks : Nat → Bytes → Exec CombinedOdb Error (List ObjectId)
  | 0, _ => pure []
  | n + 1, rest =>
    if packSignature.isPrefixOf rest then do
      let (objects, consumed) ← Exec.read fun odb => odb.explode rest
      let written ← storeObjects objects
      let more ← ingestPacks n (rest.drop consumed)
      pure (written ++ more)
    else pure []

/-- Ingests a received packfile. -/
def ingestPack (pack : Bytes) : Exec CombinedOdb Error (List ObjectId) :=
  ingestPacks (pack.length + 1) pack

/-! ## How a pack is taken apart -/

/-- A pack takes some bytes. -/
theorem pos_of_explode {odb : CombinedOdb} {data : Bytes} {objects : List ExplodedObject}
    {consumed : Nat} (h : odb.explode data = .ok (objects, consumed)) : 0 < consumed := by
  rw [explode, explodePackPrefix] at h
  split_ifs at h
  obtain ⟨s, -, h⟩ := except_bind_ok.mp h
  split_ifs at h
  cases h
  have hraw : 0 < odb.loose.algo.rawLen := by cases odb.loose.algo <;> decide
  omega

/-- The objects of a pack go under the ids they hash to. -/
theorem hash_of_explode {odb : CombinedOdb} {data : Bytes} {objects : List ExplodedObject}
    {consumed : Nat} (h : odb.explode data = .ok (objects, consumed)) :
    ∀ o ∈ objects, o.1 = hashObject odb.loose.hasher odb.loose.algo o.2.1 o.2.2 := by
  have hrun : ∀ {count : Nat} {s s' : Pack.Exploded},
      Pack.explodeEntries odb.loose.zlib odb.loose.hasher odb.loose.algo odb.read data
        count s = .ok s' →
      (∀ o ∈ s.results, o.1 = hashObject odb.loose.hasher odb.loose.algo o.2.1 o.2.2) →
      ∀ o ∈ s'.results, o.1 = hashObject odb.loose.hasher odb.loose.algo o.2.1 o.2.2 := by
    intro count
    induction count with
    | zero =>
        intro s s' hrun hs
        cases hrun
        exact hs
    | succ count ih =>
        intro s s' hrun hs
        obtain ⟨⟨ty, content, next⟩, -, hrun⟩ := except_bind_ok.mp hrun
        refine ih hrun fun o ho => ?_
        rcases List.mem_append.mp ho with ho | ho
        · exact hs o ho
        · rw [List.mem_singleton.mp ho]
  rw [explode, explodePackPrefix] at h
  split_ifs at h
  obtain ⟨s, hs, h⟩ := except_bind_ok.mp h
  split_ifs at h
  cases h
  exact hrun hs fun o ho => absurd ho List.not_mem_nil

/-- **The packs are counted out**: more turns than there are bytes change nothing. -/
theorem ingestPacks_turns {n m : Nat} {rest : Bytes} (hn : rest.length < n) (hm : rest.length < m) :
    ingestPacks n rest = ingestPacks m rest := by
  induction n generalizing m rest with
  | zero => omega
  | succ n ih =>
      cases m with
      | zero => omega
      | succ m =>
          rw [ingestPacks, ingestPacks]
          by_cases hmagic : packSignature.isPrefixOf rest = true
          · rw [if_pos hmagic, if_pos hmagic]
            refine Exec.read_bind_congr fun odb r hx => ?_
            have hpos := pos_of_explode hx
            have hlen := (List.isPrefixOf_iff_prefix.mp hmagic).length_le
            have hsignature : packSignature.length = 4 := rfl
            have hdrop : ingestPacks n (rest.drop r.2) = ingestPacks m (rest.drop r.2) :=
              ih (by rw [List.length_drop]; omega) (by rw [List.length_drop]; omega)
            simp only [hdrop]
          · rw [if_neg hmagic, if_neg hmagic]

/-! ## What the store holds afterwards -/

/-- Loose objects have been added. -/
structure Grown (odb odb' : CombinedOdb) : Prop where
  settings : odb' = { odb with loose := { odb.loose with fs := odb'.loose.fs } }
  files : ∀ q, odb'.loose.fs.get? q = odb.loose.fs.get? q ∨ ∃ id, q <+: LooseOdb.loosePath id
  kept : ∀ id, odb.loose.contains id = true → odb'.loose.contains id = true

theorem Grown.refl (odb : CombinedOdb) : Grown odb odb := ⟨rfl, fun _ => Or.inl rfl, fun _ h => h⟩

theorem Grown.trans {odb₁ odb₂ odb₃ : CombinedOdb} (h : Grown odb₁ odb₂) (h' : Grown odb₂ odb₃) :
    Grown odb₁ odb₃ := by
  refine ⟨?_, fun q => ?_, fun id hid => h'.kept id (h.kept id hid)⟩
  · rw [h'.settings, h.settings]
  · rcases h'.files q with heq | hpath
    · rw [heq]
      exact h.files q
    · exact Or.inr hpath

/-- What the id of an object depends on stays. -/
theorem Grown.hash {odb odb' : CombinedOdb} (h : Grown odb odb') (ty : ObjectType)
    (payload : Bytes) :
    hashObject odb'.loose.hasher odb'.loose.algo ty payload =
      hashObject odb.loose.hasher odb.loose.algo ty payload := by
  rw [h.settings]

/-- **A write adds its object**, unless it fails. -/
theorem put_returns (ty : ObjectType) (payload : Bytes) (odb : CombinedOdb) :
    Exec.Returns (put ty payload) odb fun r odb' => Grown odb odb' ∧ (r.toBool = true →
      odb'.loose.contains (hashObject odb.loose.hasher odb.loose.algo ty payload) = true) := by
  refine .of_eq rfl ⟨?_, fun hok => ?_⟩
  · obtain ⟨fs, hfs, hfiles⟩ := LooseOdb.write_spec odb.loose ty payload
    have hwrite : (odb.write ty payload).2 = { odb with loose := { odb.loose with fs := fs } } :=
      congrArg (fun loose => ({ odb with loose := loose } : CombinedOdb)) hfs
    show Grown odb (odb.write ty payload).2
    rw [hwrite]
    refine ⟨rfl, hfiles, fun id hid => ?_⟩
    have hkept := @LooseOdb.contains_write _ _ ty payload hid
    rwa [hfs] at hkept
  · obtain ⟨id, hid⟩ := exists_ok hok
    exact LooseOdb.contains_of_write hid

/-- **Objects that are stored are there afterwards**, each under its id. -/
theorem storeObjects_returns (objects : List ExplodedObject) (odb : CombinedOdb) :
    Exec.Returns (storeObjects objects) odb fun r odb' => Grown odb odb' ∧
      (r.toBool = true → ∀ o ∈ objects,
      odb'.loose.contains (hashObject odb.loose.hasher odb.loose.algo o.2.1 o.2.2) = true) := by
  induction objects generalizing odb with
  | nil => exact .of_eq rfl ⟨.refl odb, fun _ => nofun⟩
  | cons o objects ih =>
      obtain ⟨id, ty, payload⟩ := o
      refine (put_returns ty payload odb).bind (fun e odb₁ h₁ => ⟨h₁.1, nofun⟩) fun id₁ odb₁
        ⟨hgrown₁, hmem₁⟩ => ?_
      refine (ih odb₁).bind (fun e odb₂ h₂ => ⟨hgrown₁.trans h₂.1, nofun⟩) fun ids odb₂
        ⟨hgrown₂, hmem₂⟩ => ?_
      refine .of_eq rfl ⟨hgrown₁.trans hgrown₂, fun _ o ho => ?_⟩
      rcases List.mem_cons.mp ho with rfl | ho
      · exact hgrown₂.kept _ (hmem₁ rfl)
      · rw [← hgrown₁.hash]
        exact hmem₂ rfl o ho

/-- An object is in one of the packs at the front of some data. -/
inductive InPacks : CombinedOdb → Bytes → ObjectId → Prop
  | here {odb : CombinedOdb} {data : Bytes} {objects : List ExplodedObject} {consumed : Nat}
    {o : ExplodedObject} :
      packSignature <+: data → odb.explode data = .ok (objects, consumed) → o ∈ objects →
        InPacks odb data o.1
  | behind {odb odb' : CombinedOdb} {data : Bytes} {objects : List ExplodedObject} {consumed : Nat}
      {ids : List ObjectId} {id : ObjectId} : packSignature <+: data →
      odb.explode data = .ok (objects, consumed) → storeObjects objects odb = some (.ok ids, odb') →
      InPacks odb' (data.drop consumed) id → InPacks odb data id

/-- **The objects of all packs are there after an ingest that succeeds.** -/
theorem ingestPacks_returns {n : Nat} {rest : Bytes} (hn : rest.length < n) (odb : CombinedOdb) :
    Exec.Returns (ingestPacks n rest) odb fun r odb' => Grown odb odb' ∧ (r.toBool = true → ∀ id,
      InPacks odb rest id → odb'.loose.contains id = true) := by
  induction n generalizing rest odb with
  | zero => omega
  | succ n ih =>
      rw [ingestPacks]
      by_cases hmagic : packSignature.isPrefixOf rest = true
      · rw [if_pos hmagic]
        refine .read_bind (fun e _ => ⟨.refl odb, nofun⟩) ?_
        rintro ⟨objects, consumed⟩ hx
        have hpos := pos_of_explode hx
        have hlen := (List.isPrefixOf_iff_prefix.mp hmagic).length_le
        have hsignature : packSignature.length = 4 := rfl
        have hdrop : (rest.drop consumed).length < n := by
          rw [List.length_drop]
          omega
        refine (storeObjects_returns objects odb).run.bind (fun e odb₁ h₁ => ⟨h₁.2.1, nofun⟩)
          fun written odb₁ ⟨hstore, hgrown₁, hmem₁⟩ => ?_
        refine (ih hdrop odb₁).bind (fun e odb₂ h₂ => ⟨hgrown₁.trans h₂.1, nofun⟩) fun more odb₂
          ⟨hgrown₂, hmem₂⟩ => ?_
        refine .of_eq rfl ⟨hgrown₁.trans hgrown₂, fun _ id hid => ?_⟩
        cases hid with
        | here _ hx' ho =>
            cases hx.symm.trans hx'
            rw [hash_of_explode hx _ ho]
            exact hgrown₂.kept _ (hmem₁ rfl _ ho)
        | behind _ hx' hstore' hid =>
            cases hx.symm.trans hx'
            cases hstore.symm.trans hstore'
            exact hmem₂ rfl id hid
      · rw [if_neg hmagic]
        refine .of_eq rfl ⟨.refl odb, fun _ id hid => ?_⟩
        cases hid with
        | here hp | behind hp => exact absurd (List.isPrefixOf_iff_prefix.mpr hp) hmagic

/-! ## Opening the object directory again -/

/-- Opens the object directory of a store. -/
def reopened (out : Outside) (odb : CombinedOdb) : Except Error CombinedOdb :=
  out.openOdb odb.loose.zlib odb.loose.hasher odb.loose.fs odb.loose.algo

end CombinedOdb

namespace Outside
variable {fs fs' : GitDir} {algo : HashAlgo} {name : Str}

/-- A name below the pack directory leads there. -/
theorem path_of_resolve_inPack {r : Vfs.Resolved} (h : Vfs.resolve (str "pack/" ++ name) = .ok r) :
    ∃ rest, r.path = str "pack" :: rest := by
  have hslash : '/' ∉ str "pack" := by decide
  have hsplit : (str "pack/" ++ name).splitOn '/' = str "pack" :: name.splitOn '/' := by
    exact List.splitOn_append_cons_self_of_not_mem hslash name
  have hpack : Vfs.isNormalComponent (str "pack") = true := by decide
  rw [Vfs.resolve, hsplit] at h
  split_ifs at h
  cases h
  exact ⟨_, List.filter_cons_of_pos hpack⟩

/-- **A pack is loaded from the files below the pack directory.** -/
theorem loadPack_of_get? {lp : LoadedPack}
    (hfiles : ∀ q, fs'.get? (str "pack" :: q) = fs.get? (str "pack" :: q))
    (h : loadPack fs algo name = .ok (some lp)) : loadPack fs' algo name = .ok (some lp) := by
  have hstat : ∀ {s : Str} {e : Entry Bytes}, Vfs.stat fs (str "pack/" ++ s) = .ok e →
      Vfs.stat fs' (str "pack/" ++ s) = .ok e := by
    intro s e he
    obtain ⟨r, hr, hget, hdir⟩ := Vfs.stat_ok.mp he
    obtain ⟨rest, hrest⟩ := path_of_resolve_inPack hr
    refine Vfs.stat_ok.mpr ⟨r, hr, ?_, hdir⟩
    rwa [hrest, hfiles, ← hrest]
  have hread : ∀ {s : Str} {d : Bytes}, Vfs.read fs (str "pack/" ++ s) = .ok d →
      Vfs.read fs' (str "pack/" ++ s) = .ok d :=
        fun hd => Vfs.read_ok.mpr (hstat (Vfs.read_ok.mp hd))
  have hpath : str "pack/" ++ name.take (name.length - 4) ++ str ".pack" =
      str "pack/" ++ packFile name :=
    List.append_assoc _ _ _
  rw [loadPack] at h ⊢
  simp only [hpath] at h ⊢
  split at h
  · rename_i hcond
    rw [Bool.and_eq_true] at hcond
    obtain ⟨e, he⟩ := Vfs.pathExists_iff.mp hcond.2
    obtain ⟨idx, hidx, h⟩ := except_bind_ok.mp h
    obtain ⟨index, hindex, h⟩ := except_bind_ok.mp h
    obtain ⟨data, hdata, h⟩ := except_bind_ok.mp h
    rw [if_pos (by rw [hcond.1, Vfs.pathExists_iff.mpr ⟨e, hstat he⟩]; rfl)]
    exact except_bind_ok.mpr ⟨idx, hread hidx, except_bind_ok.mpr ⟨index, hindex,
      except_bind_ok.mpr ⟨data, hread hdata, h⟩⟩⟩
  · cases h

end Outside

namespace CombinedOdb
variable {out : Outside} {odb odb' before after : CombinedOdb}

/-- Only files of objects differ. -/
theorem Grown.get? (h : Grown odb odb') {c : Str} {q : List Str} (hc : c.length ≠ 2) :
    odb'.loose.fs.get? (c :: q) = odb.loose.fs.get? (c :: q) := by
  refine (h.files (c :: q)).resolve_right ?_
  rintro ⟨id, hprefix⟩
  have hlen := LooseOdb.two_lt_length_toHex id
  have hhead : c = id.toHex.take 2 := (List.cons_prefix_cons.mp hprefix).1
  rw [hhead, List.length_take] at hc
  omega

/-- What has a file in the object directory is in the store. -/
theorem contains_reopened_of_loose (hafter : odb.reopened out = .ok after) {id : ObjectId}
    (hid : odb.loose.contains id = true) : after.contains id = true := by
  obtain ⟨store, hstore, rfl⟩ := except_map_ok.mp hafter
  obtain ⟨packs, -, rfl⟩ := except_map_ok.mp hstore
  have hloose : (LooseOdb.new odb.loose.zlib odb.loose.hasher odb.loose.fs odb.loose.algo).contains
    id = true := hid
  show (_ || _) = true
  rw [ObjectStore.contains, hloose]
  rfl

/-- **What was in the object directory still is.** -/
theorem contains_reopened (h : Grown odb odb') (hbefore : odb.reopened out = .ok before)
    (hafter : odb'.reopened out = .ok after) {id : ObjectId} (hid : before.contains id = true) :
    after.contains id = true := by
  have hkept : odb.loose.contains id = true → after.contains id = true := fun hloose =>
    contains_reopened_of_loose hafter (h.kept id hloose)
  rw [reopened, h.settings] at hafter
  obtain ⟨store, hstore, rfl⟩ := except_map_ok.mp hbefore
  obtain ⟨packs, hpacks, rfl⟩ := except_map_ok.mp hstore
  obtain ⟨store', hstore', rfl⟩ := except_map_ok.mp hafter
  obtain ⟨packs', hpacks', rfl⟩ := except_map_ok.mp hstore'
  rw [contains, ObjectStore.contains, Bool.or_eq_true, Bool.or_eq_true] at hid
  rcases hid with (hloose | hpack) | halternate
  · exact hkept hloose
  · obtain ⟨lp, hlp, hindex⟩ := List.any_eq_true.mp hpack
    obtain ⟨name, e, he, hload⟩ := (Outside.mem_loadPacks hpacks).mp hlp
    have hfiles : ∀ q, odb'.loose.fs.get? (str "pack" :: q) =
        odb.loose.fs.get? (str "pack" :: q) := fun q =>
      h.get? (by decide)
    have hlp' : lp ∈ packs' := (Outside.mem_loadPacks hpacks').mpr
      ⟨name, e, (hfiles [name]).trans he, Outside.loadPack_of_get? hfiles hload⟩
    rw [contains, ObjectStore.contains, List.any_eq_true.mpr ⟨lp, hlp', hindex⟩,
      Bool.or_true, Bool.true_or]
  · rw [contains, Outside.loadAlternates_congr out _ _ _ (h.get? (by decide)),
      halternate, Bool.or_true]

end CombinedOdb

namespace Repository

/-- Opens the object directory again, after something was stored. -/
def reload (out : Outside) : Exec Repository Error Unit :=
  Exec.step fun repo => match repo.reloadOdb out with
    | .ok reloaded => (.ok (), reloaded)
    | .error e => (.error e, repo)

/-- Only the store changes. -/
theorem reload_returns (out : Outside) (repo : Repository) :
    Exec.Returns (reload out) repo fun r repo' =>
      repo'.fs = repo.fs ∧ repo'.algo = repo.algo ∧ (r.toBool = (repo.odb.reopened out).toBool) ∧
      (r.toBool = true → repo.odb.reopened out = .ok repo'.odb) := by
  refine .of_eq (Exec.step_apply _ _) ?_
  rw [show repo.reloadOdb out = (repo.odb.reopened out).map fun odb =>
    { repo with odb := odb } from rfl]
  cases hopen : repo.odb.reopened out with
  | error e => exact ⟨rfl, rfl, rfl, nofun⟩
  | ok odb =>
      obtain ⟨store, hstore, rfl⟩ := except_map_ok.mp hopen
      obtain ⟨packs, -, rfl⟩ := except_map_ok.mp hstore
      exact ⟨rfl, rfl, rfl, fun _ => rfl⟩

end Repository
end Puregit
