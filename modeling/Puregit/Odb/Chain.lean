import Puregit.Odb.Combined

/-! # A chain of deltas that is cut

A reader that follows bases by id within the pack walks from an entry to a whole object.  One that
does not stops at the first such base.  `chainEnd_cut` says that the walk of the first is that of
the second, with the walk from the base behind it; and a part of a chain that ends is a chain that
ends, `chainEnd_fresh`.
-/
namespace Puregit.Pack

/-- What an entry leads to: nothing further, a base in front of it, or a base by id. -/
inductive Link where
  | whole (ty : ObjectType) (content : Bytes)
  | offset (base : Nat) (delta : Bytes)
  | id (base : ObjectId) (delta : Bytes)

/-- Decodes the entry at an offset. -/
def linkAt (z : Zlib) (p : Pack) (cur : Nat) : Except Error Link := do
  let (ptype, size, hdrLen) ← parseEntryHeaderAt p.data cur
  let body := cur + hdrLen
  match ptype with
  | .whole ty => (z.inflateCapped (p.data.drop body) size).map (.whole ty)
  | .ofsDelta =>
    let (rel, n) ← readOffsetVarint p.data body
    if rel = 0 then .error (.pack (str "pack: ofs-delta base is self-referential"))
    else if cur < rel then .error (.pack (str "pack: ofs-delta base before pack start"))
    else (z.inflateCapped (p.data.drop (body + n)) size).map (.offset (cur - rel))
  | .refDelta =>
    let baseId ← readBaseId p.algo p.data body
    (z.inflateCapped (p.data.drop (body + p.algo.rawLen)) size).map (.id baseId)

variable {z : Zlib} {p : Pack} {locate : ObjectId → Option Nat} {left cur : Nat}
  {deltas full : List Bytes} {visited : BTreeSet Nat}
  {e : ChainEnd} {ty : ObjectType} {content : Bytes}

/-- How the walk goes on from an entry. -/
def follow (z : Zlib) (p : Pack) (locate : ObjectId → Option Nat) (left : Nat) (deltas : List Bytes)
    (visited : BTreeSet Nat) :
    Link → Except Error (ChainEnd × List Bytes)
  | .whole ty content => .ok (.whole ty content, deltas)
  | .offset base delta => chainEnd z p locate left (deltas ++ [delta]) visited base
  | .id base delta =>
    match locate base with
    | some offset => chainEnd z p locate left (deltas ++ [delta]) visited offset
    | none => .ok (.outside base, deltas ++ [delta])

/-- **A walk goes from entry to entry.** -/
theorem chainEnd_succ (left : Nat) (deltas : List Bytes) (visited : BTreeSet Nat) (cur : Nat) :
    chainEnd z p locate (left + 1) deltas visited cur =
      if visited.contains cur then .error (.pack (str "pack: delta chain is cyclic"))
      else linkAt z p cur >>= follow z p locate left deltas (visited.insert cur) := by
  unfold chainEnd linkAt
  by_cases hvisited : visited.contains cur = true
  · rw [if_pos hvisited, if_pos hvisited]
  rw [if_neg hvisited, if_neg hvisited]
  simp only [bind_assoc]
  refine bind_congr fun header => ?_
  obtain ⟨ptype, size, hdrLen⟩ := header
  cases ptype with
  | whole ty =>
    simp only
    cases z.inflateCapped (p.data.drop (cur + hdrLen)) size <;> rfl
  | ofsDelta =>
    simp only [bind_assoc]
    refine bind_congr fun offset => ?_
    obtain ⟨rel, n⟩ := offset
    simp only
    split_ifs
    · rfl
    · rfl
    · cases z.inflateCapped (p.data.drop (cur + hdrLen + n)) size <;> rfl
  | refDelta =>
    simp only [bind_assoc]
    refine bind_congr fun baseId => ?_
    cases z.inflateCapped (p.data.drop (cur + hdrLen + p.algo.rawLen)) size <;> rfl

theorem chainEnd_succ_ok {r : ChainEnd × List Bytes} :
    chainEnd z p locate (left + 1) deltas visited cur = .ok r ↔
    visited.contains cur = false ∧ ∃ link, linkAt z p cur = .ok link ∧
      follow z p locate left deltas (visited.insert cur) link = .ok r := by
  rw [chainEnd_succ]
  split
  · rename_i h
    simp [h]
  · rename_i h
    rw [except_bind_ok, Bool.not_eq_true] at *
    exact (and_iff_right h).symm

/-- **A walk that ends** ends in the same way from any state that has seen less. -/
theorem chainEnd_fresh (h : chainEnd z p locate left deltas visited cur = .ok (e, full)) :
    ∃ rest, full = deltas ++ rest ∧ ∀ (left' : Nat) (deltas' : List Bytes)
      (visited' : BTreeSet Nat), left ≤ left' →
      (∀ x, visited'.contains x = true → visited.contains x = true) →
      chainEnd z p locate left' deltas' visited' cur = .ok (e, deltas' ++ rest) := by
  induction left generalizing deltas visited cur with
  | zero => cases h
  | succ left ih =>
    obtain ⟨hnew, link, hlink, hfollow⟩ := chainEnd_succ_ok.mp h
    -- the walk from the next entry, one delta longer
    have hnext : ∀ {next : Nat} {delta : Bytes},
      chainEnd z p locate left (deltas ++ [delta]) (visited.insert cur) next = .ok (e, full) →
        ∃ rest, full = deltas ++ rest ∧
          ∀ (left' : Nat) (deltas' : List Bytes) (visited' : BTreeSet Nat), left ≤ left' →
          (∀ x, visited'.contains x = true → visited.contains x = true) →
          chainEnd z p locate left' (deltas' ++ [delta]) (visited'.insert cur) next =
            .ok (e, deltas' ++ rest) := by
      intro next delta hwalk
      obtain ⟨rest, rfl, hfresh⟩ := ih hwalk
      refine ⟨delta :: rest, by simp, fun left' deltas' visited' hle hless => ?_⟩
      rw [hfresh left' (deltas' ++ [delta]) (visited'.insert cur) hle]
      · simp
      · intro x hx
        simp only [BTreeSet.contains_iff_mem, BTreeSet.mem_insert] at hx hless ⊢
        exact hx.imp_right (hless x)
    have hless : ∀ {visited' : BTreeSet Nat},
      (∀ x, visited'.contains x = true → visited.contains x = true) →
        visited'.contains cur = false := by
      intro visited' hsub
      by_contra hc
      rw [hsub cur (Bool.not_eq_false _ ▸ hc)] at hnew
      cases hnew
    cases link with
    | whole ty content =>
      cases hfollow
      refine ⟨[], (List.append_nil _).symm, fun left' deltas' visited' hle hsub => ?_⟩
      obtain ⟨m, rfl⟩ := Nat.exists_eq_add_of_le' hle
      exact chainEnd_succ_ok.mpr ⟨hless hsub, _, hlink, by rw [follow, List.append_nil]⟩
    | offset base delta =>
      obtain ⟨rest, rfl, hfresh⟩ := hnext hfollow
      refine ⟨rest, rfl, fun left' deltas' visited' hle hsub => ?_⟩
      obtain ⟨m, rfl⟩ := Nat.exists_eq_add_of_le' hle
      exact chainEnd_succ_ok.mpr ⟨hless hsub, _, hlink, hfresh _ _ _ (Nat.le_add_left _ _) hsub⟩
    | id base delta =>
      rw [follow] at hfollow
      cases hlocate : locate base with
      | none =>
        rw [hlocate] at hfollow
        cases hfollow
        refine ⟨[delta], rfl, fun left' deltas' visited' hle hsub => ?_⟩
        obtain ⟨m, rfl⟩ := Nat.exists_eq_add_of_le' hle
        refine chainEnd_succ_ok.mpr ⟨hless hsub, _, hlink, ?_⟩
        rw [follow, hlocate]
      | some offset =>
        rw [hlocate] at hfollow
        obtain ⟨rest, rfl, hfresh⟩ := hnext hfollow
        refine ⟨rest, rfl, fun left' deltas' visited' hle hsub => ?_⟩
        obtain ⟨m, rfl⟩ := Nat.exists_eq_add_of_le' hle
        refine chainEnd_succ_ok.mpr ⟨hless hsub, _, hlink, ?_⟩
        rw [follow, hlocate]
        exact hfresh _ _ _ (Nat.le_add_left _ _) hsub

/-- **A chain within a pack, cut at the first base by id**: it ends there as in the pack, or it is
the walk to that base with the walk from it behind. -/
theorem chainEnd_cut (h : chainEnd z p locate left deltas visited cur = .ok
    (.whole ty content, full)) :
    ∃ e ds, chainEnd z p (fun _ => none) left deltas visited cur = .ok (e, deltas ++ ds) ∧
      ((e = .whole ty content ∧ full = deltas ++ ds) ∨
        ∃ base offset rest, e = .outside base ∧ locate base = some offset ∧ ds ≠ [] ∧
          full = deltas ++ (ds ++ rest) ∧
          ∀ left', left ≤ left' → chainEnd z p locate left' [] BTreeSet.empty offset =
            .ok (.whole ty content, rest)) := by
  induction left generalizing deltas visited cur with
  | zero => cases h
  | succ left ih =>
    obtain ⟨hnew, link, hlink, hfollow⟩ := chainEnd_succ_ok.mp h
    cases link with
    | whole ty content =>
      cases hfollow
      refine ⟨.whole ty content, [], ?_, Or.inl ⟨rfl, (List.append_nil _).symm⟩⟩
      exact chainEnd_succ_ok.mpr ⟨hnew, _, hlink, by rw [follow, List.append_nil]⟩
    | offset base delta =>
      obtain ⟨e, ds, hwalk, hend⟩ := ih hfollow
      refine ⟨e, delta :: ds, ?_, ?_⟩
      · refine chainEnd_succ_ok.mpr ⟨hnew, _, hlink, ?_⟩
        rw [follow, hwalk]
        simp
      · rcases hend with ⟨he, hfull⟩ | ⟨b, o, rest, he, hb, hds, hfull, hbase⟩
        · exact Or.inl ⟨he, by rw [hfull]; simp⟩
        · exact Or.inr ⟨b, o, rest, he, hb, List.cons_ne_nil _ _,
            by rw [hfull]; simp, fun left' hle => hbase left' (by omega)⟩
    | id base delta =>
      rw [follow] at hfollow
      refine ⟨.outside base, [delta], chainEnd_succ_ok.mpr ⟨hnew, _, hlink, rfl⟩, Or.inr ?_⟩
      cases hlocate : locate base with
      | none =>
        rw [hlocate] at hfollow
        cases hfollow
      | some offset =>
        rw [hlocate] at hfollow
        obtain ⟨rest, hfull, hfresh⟩ := chainEnd_fresh hfollow
        refine ⟨base, offset, rest, rfl, hlocate, List.cons_ne_nil _ _,
          by rw [hfull]; simp, fun left' hle => ?_⟩
        exact hfresh left' [] BTreeSet.empty (by omega) fun x hx => by simp at hx

/-- Deltas are applied from the back. -/
theorem applyAll_append (content : Bytes) (ds rest : List Bytes) :
    applyAll content (ds ++ rest) = applyAll content rest >>= fun c => applyAll c ds := by
  rw [applyAll, List.reverse_append, List.foldlM_append]
  rfl

end Puregit.Pack
