import Puregit.Pack.RoundTrip

/-! # Which base an object is written against

The writer tries its candidates in turn and keeps the first of the shortest deltas, if it
is shorter than the object.  `Smallest` says by sizes alone that this is the delta against
an external base, and `resolvable_iff` which packs a reader can read by it.
-/
namespace Puregit
namespace PackWriter

variable {z : Zlib} {raw payload : Bytes}

/-- The delta against a candidate is shorter than the object and than the deltas before it, and
none after it is shorter. -/
def Shortest (z : Zlib) (raw payload : Bytes) (cs : List Candidate) (c : Candidate) : Prop :=
  ∃ before after enc, cs = before ++ c :: after ∧ encode z payload c = .ok enc ∧
    enc.cost < raw.length ∧
    (∀ c' ∈ before, ∀ enc', encode z payload c' = .ok enc' → enc.cost < enc'.cost) ∧
    ∀ c' ∈ after, ∀ enc', encode z payload c' = .ok enc' → enc.cost ≤ enc'.cost

theorem better_iff {b : Encoding} {best : Option Encoding} :
    better raw b best = true ↔ b.cost < raw.length ∧ ∀ c, best = some c → b.cost < c.cost := by
  cases best <;> simp [better]

/-- The best delta so far stays where none is shorter. -/
theorem consider_stays {b : Encoding} : ∀ {cs : List Candidate} {r : Option Encoding},
    consider z raw payload cs (some b) = .ok r →
    (∀ c ∈ cs, ∀ enc, encode z payload c = .ok enc → b.cost ≤ enc.cost) → r = some b := by
  intro cs
  induction cs with
  | nil =>
    intro r h _
    cases h
    rfl
  | cons c cs ih =>
    intro r h hle
    obtain ⟨enc, henc, h⟩ := except_bind_ok.mp h
    have hc := hle c List.mem_cons_self enc henc
    have hnot : ¬ better raw enc (some b) = true := by
      rw [better_iff]
      rintro ⟨-, hlt⟩
      have := hlt b rfl
      omega
    rw [if_neg hnot] at h
    exact ih h fun c' hc' => hle c' (List.mem_cons_of_mem c hc')

/-- Where a delta is chosen, it was the best so far or it is the shortest. -/
theorem consider_shortest {b : Encoding} : ∀ {cs : List Candidate} {best : Option Encoding},
    (∀ c, best = some c → c.cost < raw.length) →
    consider z raw payload cs best = .ok (some b) →
    (best = some b ∧ ∀ c ∈ cs, ∀ enc, encode z payload c = .ok enc → b.cost ≤ enc.cost) ∨
      (Shortest z raw payload cs b.cand ∧ encode z payload b.cand = .ok b ∧
        ∀ c, best = some c → b.cost < c.cost) := by
  intro cs
  induction cs with
  | nil =>
    intro best _ h
    cases h
    exact Or.inl ⟨rfl, fun c hc => absurd hc List.not_mem_nil⟩
  | cons c cs ih =>
    intro best hbest h
    obtain ⟨enc, henc, h⟩ := except_bind_ok.mp h
    by_cases hbetter : better raw enc best = true
    · rw [if_pos hbetter] at h
      obtain ⟨hraw, hlt⟩ := better_iff.mp hbetter
      rcases ih (fun c hc => by cases hc; exact hraw) h with ⟨heq, hle⟩ | ⟨hshort, hb, hless⟩
      · cases heq
        have hcand : b.cand = c := (encode_ok henc).1
        rw [hcand]
        exact Or.inr ⟨⟨[], cs, b, rfl, henc, hraw, by simp, hle⟩, hcand ▸ henc, hlt⟩
      · have hencless := hless enc rfl
        obtain ⟨before, after, b', rfl, hb', hbraw, hbefore, hafter⟩ := hshort
        cases hb.symm.trans hb'
        refine Or.inr ⟨⟨c :: before, after, b, rfl, hb, hbraw, ?_, hafter⟩, hb, ?_⟩
        · intro c' hc' enc' henc'
          rcases List.mem_cons.mp hc' with rfl | hc'
          · cases henc.symm.trans henc'
            exact hencless
          · exact hbefore c' hc' enc' henc'
        · intro d hd
          have := hlt d hd
          omega
    · rw [if_neg hbetter] at h
      rcases ih hbest h with ⟨rfl, hle⟩ | ⟨hshort, hb, hless⟩
      · have hbraw := hbest b rfl
        have hnotless : b.cost ≤ enc.cost := by
          by_contra hlt
          apply hbetter
          rw [better_iff]
          refine ⟨by omega, ?_⟩
          intro d hd
          cases hd
          omega
        refine Or.inl ⟨rfl, ?_⟩
        intro c' hc' enc' henc'
        rcases List.mem_cons.mp hc' with rfl | hc'
        · cases henc.symm.trans henc'
          exact hnotless
        · exact hle c' hc' enc' henc'
      · obtain ⟨before, after, b', rfl, hb', hbraw, hbefore, hafter⟩ := hshort
        cases hb.symm.trans hb'
        refine Or.inr ⟨⟨c :: before, after, b, rfl, hb, hbraw, ?_, hafter⟩, hb, hless⟩
        intro c' hc' enc' henc'
        rcases List.mem_cons.mp hc' with rfl | hc'
        · cases henc.symm.trans henc'
          -- it is longer than the object or than the best delta before it
          by_contra hge
          apply hbetter
          rw [better_iff]
          refine ⟨by omega, ?_⟩
          intro d hd
          have := hless d hd
          omega
        · exact hbefore c' hc' enc' henc'

theorem consider_append {cs cs' : List Candidate} {best : Option Encoding} :
    consider z raw payload (cs ++ cs') best =
      consider z raw payload cs best >>= consider z raw payload cs' := by
  induction cs generalizing best with
  | nil => rfl
  | cons c cs ih =>
    rw [List.cons_append, consider, consider]
    cases encode z payload c with
    | error e => rfl
    | ok enc => exact ih

/-- **The delta chosen is the shortest**, and the shortest is chosen. -/
theorem consider_iff {cs : List Candidate} {r : Option Encoding}
    (h : consider z raw payload cs none = .ok r) (c : Candidate) :
    (∃ b, r = some b ∧ b.cand = c) ↔ Shortest z raw payload cs c := by
  constructor
  · rintro ⟨b, rfl, rfl⟩
    rcases consider_shortest (by simp) h with ⟨hnone, -⟩ | ⟨hshort, -⟩
    · cases hnone
    · exact hshort
  · rintro ⟨before, after, enc, rfl, henc, hraw, hbefore, hafter⟩
    rw [consider_append] at h
    obtain ⟨best, hbest, h⟩ := except_bind_ok.mp h
    obtain ⟨enc', henc', h⟩ := except_bind_ok.mp h
    cases henc.symm.trans henc'
    have hbetter : better raw enc best = true := by
      rw [better_iff]
      refine ⟨hraw, ?_⟩
      rintro d rfl
      rcases consider_some hbest with hnone | ⟨c', hc', hd⟩
      · cases hnone
      · exact hbefore c' hc' d hd
    rw [if_pos hbetter] at h
    exact ⟨enc, consider_stays h hafter, (encode_ok henc).1⟩

variable {w : PackWriter} {resolve : ExternalResolver}

/-- In the state `s` of the writer, the smallest encoding of an object is the delta against an
external base. -/
def Smallest (z : Zlib) (w : PackWriter) (s : Written) (e b : PackEntry) : Prop :=
  e.payload.length ≤ maxDeltaSize ∧ ∃ raw, z.deflate e.payload = .ok raw ∧
    Shortest z raw e.payload (w.candidates s.bases e.ty s.pack.length) ⟨b.payload, .ref b.id⟩

/-- An object is written against the external base that makes it smallest. -/
theorem refers_iff {s s' : Written} {e b : PackEntry} (hwrite : w.writeObject z s e = .ok s') :
    Refers z w s e b ↔ b ∈ externalWindow w.externalBases e.ty ∧ Smallest z w s e b := by
  obtain ⟨raw, hraw, hwrite⟩ := except_bind_ok.mp hwrite
  obtain ⟨best, hbest, -⟩ := except_bind_ok.mp hwrite
  refine and_congr_right fun hb => ?_
  constructor
  · rintro ⟨raw', enc, hraw', henc, hcand⟩
    have hsize := (choose_some henc).1
    rw [choose, if_pos hsize] at henc
    exact ⟨hsize, raw', hraw', (consider_iff henc _).mp ⟨enc, rfl, hcand⟩⟩
  · rintro ⟨hsize, raw', hraw', hshort⟩
    cases hraw.symm.trans hraw'
    have hconsider := hbest
    rw [choose, if_pos hsize] at hconsider
    obtain ⟨enc, rfl, hcand⟩ := (consider_iff hconsider _).mpr hshort
    exact ⟨raw, enc, hraw, hbest, hcand⟩

/-- What it takes to read a pack, at each of its objects. -/
theorem resolvable_iff : ∀ {es done : List PackEntry} {s s' : Written},
    es.foldlM (w.writeObject z) s = .ok s' → (Resolvable z w resolve done s es ↔
      ∀ pre e post, es = pre ++ e :: post → ∀ s₁, pre.foldlM (w.writeObject z) s = .ok s₁ →
        ∀ b ∈ externalWindow w.externalBases e.ty, Smallest z w s₁ e b →
          Known resolve (done ++ pre) b) := by
  intro es
  induction es with
  | nil =>
    intro done s s' _
    refine iff_of_true trivial ?_
    intro pre e post h
    simp at h
  | cons e es ih =>
    intro done s s' hrun
    rw [List.foldlM_cons] at hrun
    obtain ⟨s₂, hwrite, hrun⟩ := except_bind_ok.mp hrun
    constructor
    · rintro ⟨hknown, hrest⟩ pre e' post heq s₁ hs₁ b hb hsmall
      cases pre with
      | nil =>
        cases heq
        cases hs₁
        rw [List.append_nil]
        exact hknown b ((refers_iff hwrite).mpr ⟨hb, hsmall⟩)
      | cons x pre =>
        cases heq
        rw [List.foldlM_cons] at hs₁
        obtain ⟨s₃, hs₃, hs₁⟩ := except_bind_ok.mp hs₁
        cases hwrite.symm.trans hs₃
        have hk := (ih hrun).mp (hrest s₂ hwrite) pre e' post rfl s₁ hs₁ b hb hsmall
        rwa [List.append_assoc, List.singleton_append] at hk
    · intro hall
      constructor
      · intro b hb
        obtain ⟨hwindow, hsmall⟩ := (refers_iff hwrite).mp hb
        have hk := hall [] e es rfl s rfl b hwindow hsmall
        rwa [List.append_nil] at hk
      · intro s₃ hs₃
        cases hwrite.symm.trans hs₃
        rw [ih hrun]
        intro pre e' post heq s₁ hs₁ b hb hsmall
        have hfold : (e :: pre).foldlM (w.writeObject z) s = .ok s₁ := by
          rw [List.foldlM_cons]
          exact except_bind_ok.mpr ⟨s₂, hwrite, hs₁⟩
        have hk := hall (e :: pre) e' post (by rw [heq, List.cons_append]) s₁ hfold b hb hsmall
        rwa [List.append_assoc, List.singleton_append]

end PackWriter
end Puregit
