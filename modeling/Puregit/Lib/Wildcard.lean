import Mathlib.Data.List.Forall2
import Mathlib.Logic.Relation
import Mathlib.Order.Lattice
import Mathlib.Tactic.Ring

/-! # Matching with wildcards

A sequence of tokens matches a sequence of symbols if the symbols are a run for each token:
any run for a wild token, one symbol for another.  `Spans` is that relation.

Two algorithms decide it.  `greedy` goes back to the last wild token met whenever a symbol
does not fit; it tries a token as an ordinary one first, and so decides `LiteralFirst`, which
is the relation where no wild token would be an ordinary one.  `table` marks which prefixes
match which.
-/
namespace Puregit.Wildcard

variable {τ σ : Type} {wild : τ → Bool} {one : τ → σ → Bool}

/-- A token takes any run of symbols, or one symbol. -/
def Takes (wild : τ → Bool) (one : τ → σ → Bool) (tok : τ) (part : List σ) : Prop :=
  wild tok = true ∨ wild tok = false ∧ ∃ s, part = [s] ∧ one tok s = true

/-- The symbols are a run for each token. -/
def Spans (wild : τ → Bool) (one : τ → σ → Bool) (toks : List τ) (syms : List σ) : Prop :=
  ∃ parts, List.Forall₂ (Takes wild one) toks parts ∧ parts.flatten = syms

/-! ## Composing matches -/

theorem spans_nil {syms : List σ} : Spans wild one [] syms ↔ syms = [] := by
  constructor
  · rintro ⟨parts, hparts, rfl⟩
    cases hparts
    rfl
  · rintro rfl
    exact ⟨[], .nil, rfl⟩

/-- **Tokens match one part and then the other.** -/
theorem spans_append {a b : List τ} {syms : List σ} : Spans wild one (a ++ b) syms ↔
    ∃ x y, syms = x ++ y ∧ Spans wild one a x ∧ Spans wild one b y := by
  constructor
  · rintro ⟨parts, hparts, rfl⟩
    obtain ⟨pa, pb, ha, hb, rfl⟩ : ∃ pa pb, List.Forall₂ (Takes wild one) a pa ∧
        List.Forall₂ (Takes wild one) b pb ∧ parts = pa ++ pb :=
      ⟨parts.take a.length, parts.drop a.length, by simpa using List.forall₂_take a.length hparts,
        by simpa using List.forall₂_drop a.length hparts, (List.take_append_drop _ _).symm⟩
    exact ⟨pa.flatten, pb.flatten, List.flatten_append, ⟨pa, ha, rfl⟩, pb, hb, rfl⟩
  · rintro ⟨x, y, rfl, ⟨pa, ha, rfl⟩, pb, hb, rfl⟩
    exact ⟨pa ++ pb, List.rel_append ha hb, List.flatten_append⟩

theorem spans_singleton {tok : τ} {syms : List σ} :
    Spans wild one [tok] syms ↔ Takes wild one tok syms := by
  constructor
  · rintro ⟨parts, hparts, rfl⟩
    obtain ⟨part, rest, htake, hrest, rfl⟩ := List.forall₂_cons_left_iff.mp hparts
    cases hrest
    simpa using htake
  · exact fun h => ⟨[syms], .cons h .nil, by simp⟩

theorem spans_cons {tok : τ} {toks : List τ} {syms : List σ} : Spans wild one (tok :: toks) syms ↔
    ∃ x y, syms = x ++ y ∧ Takes wild one tok x ∧ Spans wild one toks y := by
  rw [← List.singleton_append, spans_append]
  simp only [spans_singleton]

/-- A wild token takes whatever is before the rest. -/
theorem spans_wild {tok : τ} {toks : List τ} {syms : List σ} (h : wild tok = true) :
    Spans wild one (tok :: toks) syms ↔ ∃ x y, syms = x ++ y ∧ Spans wild one toks y := by
  rw [spans_cons]
  simp [Takes, h]

/-- Another token takes one symbol. -/
theorem spans_one {tok : τ} {toks : List τ} {s : σ} {syms : List σ} (h : wild tok = false) :
    Spans wild one (tok :: toks) (s :: syms) ↔ one tok s = true ∧ Spans wild one toks syms := by
  rw [spans_cons]
  constructor
  · rintro ⟨x, y, hxy, htake, hspans⟩
    rcases htake with hwild | ⟨-, s', rfl, hone⟩
    · rw [h] at hwild
      cases hwild
    · cases hxy
      exact ⟨hone, hspans⟩
  · rintro ⟨hone, hspans⟩
    exact ⟨[s], syms, rfl, Or.inr ⟨h, s, rfl, hone⟩, hspans⟩

theorem not_spans_one_nil {tok : τ} {toks : List τ} (h : wild tok = false) :
    ¬ Spans wild one (tok :: toks) [] := by
  rw [spans_cons]
  rintro ⟨x, y, hxy, hwild | ⟨-, s, rfl, -⟩, -⟩
  · rw [h] at hwild
    cases hwild
  · cases hxy

/-- Nothing is matched by wild tokens only. -/
theorem spans_nil_right {toks : List τ} : Spans wild one toks [] ↔ toks.all wild = true := by
  induction toks with
  | nil => exact iff_of_true (spans_nil.mpr rfl) rfl
  | cons tok toks ih =>
      rw [List.all_cons, Bool.and_eq_true, ← ih]
      cases h : wild tok with
      | true =>
          rw [spans_wild h]
          constructor
          · rintro ⟨x, y, hxy, hspans⟩
            rw [(List.append_eq_nil_iff.mp hxy.symm).2] at hspans
            exact ⟨rfl, hspans⟩
          · exact fun hspans => ⟨[], [], rfl, hspans.2⟩
      | false => simp [not_spans_one_nil h]

/-- Tokens that are not wild take as many symbols. -/
theorem Spans.length_eq {toks : List τ} {syms : List σ} (h : ∀ tok ∈ toks, wild tok = false)
    (hspans : Spans wild one toks syms) : syms.length = toks.length := by
  induction toks generalizing syms with
  | nil => rw [spans_nil.mp hspans, List.length_nil, List.length_nil]
  | cons tok toks ih =>
      have htok := h tok List.mem_cons_self
      cases syms with
      | nil => exact absurd hspans (not_spans_one_nil htok)
      | cons s syms =>
          obtain ⟨-, hrest⟩ := (spans_one htok).mp hspans
          rw [List.length_cons, List.length_cons,
            ih (fun t ht => h t (List.mem_cons_of_mem tok ht)) hrest]

/-- Tokens that are not wild and fit only themselves match only themselves. -/
theorem spans_iff_eq {wild : τ → Bool} {one : τ → τ → Bool} {toks syms : List τ}
    (h : ∀ tok ∈ toks, wild tok = false ∧ ∀ s, one tok s = true ↔ tok = s) :
    Spans wild one toks syms ↔ toks = syms := by
  induction toks generalizing syms with
  | nil => rw [spans_nil, eq_comm]
  | cons tok toks ih =>
      rw [List.forall_mem_cons] at h
      cases syms with
      | nil => exact iff_of_false (not_spans_one_nil h.1.1) nofun
      | cons s syms => rw [spans_one h.1.1, h.1.2, ih h.2, List.cons.injEq]

/-! ## Going back to the last wild token -/

/-- Matches from the left.  `star` holds the tokens after the last wild token met and the
symbols it has not taken. -/
def greedy (wild : τ → Bool) (one : τ → σ → Bool) :
    Nat → List τ → List σ → Option (List τ × List σ) → Bool
  | 0, _, _, _ => false
  | _ + 1, pat, [], _ => pat.all wild
  | n + 1, pat, s :: text, star =>
    let back := match star with
      | some (after, left) => greedy wild one n after left.tail (some (after, left.tail))
      | none => false
    match pat with
    | [] => back
    | c :: rest =>
      if one c s then greedy wild one n rest text star
      else if wild c then greedy wild one n rest (s :: text) (some (rest, s :: text))
      else back

/-- The symbols are a run for each token, where a wild token that can be an ordinary one is
one: it takes the symbol it stands at and no other run. -/
def LiteralFirst (wild : τ → Bool) (one : τ → σ → Bool) : List τ → List σ → Prop
  | [], syms => syms = []
  | tok :: toks, syms =>
      (∃ s rest, syms = s :: rest ∧ one tok s = true ∧ LiteralFirst wild one toks rest) ∨
      (wild tok = true ∧ (∀ s ∈ syms.head?, one tok s = false) ∧
        ∃ part rest, syms = part ++ rest ∧ LiteralFirst wild one toks rest)

theorem literalFirst_one {tok : τ} {toks : List τ} {s : σ} {syms : List σ} (h : one tok s = true) :
    LiteralFirst wild one (tok :: toks) (s :: syms) ↔ LiteralFirst wild one toks syms := by
  rw [LiteralFirst]
  constructor
  · rintro (⟨s', rest, heq, -, hrest⟩ | ⟨-, hnone, -⟩)
    · cases heq
      exact hrest
    · rw [hnone s rfl] at h
      cases h
  · exact fun hrest => Or.inl ⟨s, syms, rfl, h, hrest⟩

theorem literalFirst_wild {tok : τ} {toks : List τ} {syms : List σ} (hwild : wild tok = true)
    (hone : ∀ s ∈ syms.head?, one tok s = false) :
    LiteralFirst wild one (tok :: toks) syms ↔
      ∃ part rest, syms = part ++ rest ∧ LiteralFirst wild one toks rest := by
  rw [LiteralFirst]
  constructor
  · rintro (⟨s, rest, rfl, h, -⟩ | ⟨-, -, hrest⟩)
    · rw [hone s rfl] at h
      cases h
    · exact hrest
  · exact fun hrest => Or.inr ⟨hwild, hone, hrest⟩

theorem not_literalFirst {tok : τ} {toks : List τ} {s : σ} {syms : List σ}
    (hone : one tok s = false) (hwild : wild tok = false) :
    ¬ LiteralFirst wild one (tok :: toks) (s :: syms) := by
  rintro (⟨s', rest, heq, h, -⟩ | ⟨h, -⟩)
  · cases heq
    rw [hone] at h
    cases h
  · rw [hwild] at h
    cases h

/-- Nothing is matched by wild tokens only. -/
theorem literalFirst_nil_right {toks : List τ} :
    LiteralFirst wild one toks [] ↔ toks.all wild = true := by
  induction toks with
  | nil => exact iff_of_true rfl rfl
  | cons tok toks ih =>
      rw [List.all_cons, Bool.and_eq_true, ← ih]
      constructor
      · rintro (⟨s, rest, heq, -⟩ | ⟨hwild, -, part, rest, heq, hrest⟩)
        · cases heq
        · rw [(List.append_eq_nil_iff.mp heq.symm).2] at hrest
          exact ⟨hwild, hrest⟩
      · rintro ⟨hwild, hrest⟩
        exact Or.inr ⟨hwild, nofun, [], [], rfl, hrest⟩

/-- What is matched this way is matched. -/
theorem LiteralFirst.spans {toks : List τ} {syms : List σ} (h : LiteralFirst wild one toks syms) :
    Spans wild one toks syms := by
  induction toks generalizing syms with
  | nil => exact spans_nil.mpr h
  | cons tok toks ih =>
      rcases h with ⟨s, rest, rfl, hone, hrest⟩ | ⟨hwild, -, part, rest, rfl, hrest⟩
      · cases hwild : wild tok with
        | true => exact (spans_wild hwild).mpr ⟨[s], rest, rfl, ih hrest⟩
        | false => exact (spans_one hwild).mpr ⟨hone, ih hrest⟩
      · exact (spans_wild hwild).mpr ⟨part, rest, rfl, ih hrest⟩

/-- **Where no wild token can be an ordinary one**, what is matched is matched this way. -/
theorem literalFirst_iff_spans {toks : List τ} {syms : List σ}
    (h : ∀ tok ∈ toks, ∀ s ∈ syms, wild tok = true → one tok s = false) :
    LiteralFirst wild one toks syms ↔ Spans wild one toks syms := by
  refine ⟨LiteralFirst.spans, fun hspans => ?_⟩
  induction toks generalizing syms with
  | nil => exact spans_nil.mp hspans
  | cons tok toks ih =>
      have hrest : ∀ rest : List σ, (∀ s ∈ rest, s ∈ syms) →
          ∀ t ∈ toks, ∀ s ∈ rest, wild t = true → one t s = false :=
        fun rest hsub t ht s hs => h t (List.mem_cons_of_mem tok ht) s (hsub s hs)
      cases hwild : wild tok with
      | true =>
          obtain ⟨part, rest, rfl, htail⟩ := (spans_wild hwild).mp hspans
          refine (literalFirst_wild hwild fun s hs => ?_).mpr ⟨part, rest, rfl, ?_⟩
          · exact h tok List.mem_cons_self s (List.mem_of_mem_head? hs) hwild
          · exact ih (hrest rest fun s hs => List.mem_append_right part hs) htail
      | false =>
          cases syms with
          | nil => exact absurd hspans (not_spans_one_nil hwild)
          | cons s syms =>
              obtain ⟨hone, htail⟩ := (spans_one hwild).mp hspans
              exact (literalFirst_one hone).mpr
                (ih (hrest syms fun x hx => List.mem_cons_of_mem s hx) htail)

/-- Tokens that matched symbol by symbol from some place end no earlier from a later one. -/
theorem LiteralFirst.behind {fixed pat : List τ} {taken text : List σ}
    (hfixed : List.Forall₂ (fun tok s => one tok s = true) fixed taken) {part rest : List σ}
    (hsplit : taken ++ text = part ++ rest) (h : LiteralFirst wild one (fixed ++ pat) rest) :
    ∃ before after, text = before ++ after ∧ LiteralFirst wild one pat after := by
  induction hfixed generalizing part rest with
  | nil => exact ⟨part, rest, hsplit, h⟩
  | @cons tok s fixed taken hone _ ih =>
      cases part with
      | nil =>
          rw [List.cons_append, List.nil_append] at hsplit
          rw [List.cons_append, ← hsplit, literalFirst_one hone] at h
          exact @ih [] _ rfl h
      | cons s' part =>
          obtain ⟨-, hsplit⟩ := List.cons.inj hsplit
          rcases h with ⟨x, more, rfl, -, hmore⟩ | ⟨-, -, run, more, rfl, hmore⟩
          · exact @ih (part ++ [x]) more (hsplit.trans (by simp)) hmore
          · exact @ih (part ++ run) more (hsplit.trans (by simp)) hmore

/-- A wild token that cannot be an ordinary one takes what is before a later match of its. -/
theorem LiteralFirst.absorb {tok : τ} {toks : List τ} {before after : List σ}
    (hwild : wild tok = true) (hone : ∀ s ∈ (before ++ after).head?, one tok s = false)
    (h : LiteralFirst wild one (tok :: toks) after) :
    LiteralFirst wild one (tok :: toks) (before ++ after) := by
  rw [literalFirst_wild hwild hone]
  rcases h with ⟨s, rest, rfl, -, hrest⟩ | ⟨-, -, part, rest, rfl, hrest⟩
  · exact ⟨before ++ [s], rest, by simp, hrest⟩
  · exact ⟨before ++ part, rest, by simp, hrest⟩

/-- With a wild token met, the ones after it having matched symbol by symbol so far: the rest
is matched, or it takes more. -/
theorem greedy_some {n bound : Nat} {fixed pat : List τ} {taken text : List σ}
    (hfixed : List.Forall₂ (fun tok s => one tok s = true) fixed taken)
    (hbound : (fixed ++ pat).length ≤ bound)
    (hn : (taken ++ text).length * (bound + 1) + pat.length < n) :
    greedy wild one n pat text (some (fixed ++ pat, taken ++ text)) = true ↔
      LiteralFirst wild one pat text ∨
      ∃ part rest, part ≠ [] ∧ taken ++ text = part ++ rest ∧
        LiteralFirst wild one (fixed ++ pat) rest := by
  induction n generalizing fixed pat taken text with
  | zero => omega
  | succ n ih =>
  cases text with
  | nil =>
      rw [greedy, ← @literalFirst_nil_right _ _ _ one]
      refine ⟨Or.inl, fun h => h.elim id ?_⟩
      rintro ⟨part, rest, -, hsplit, hrest⟩
      obtain ⟨before, after, heq, hafter⟩ := LiteralFirst.behind hfixed hsplit hrest
      rwa [(List.append_eq_nil_iff.mp heq.symm).2] at hafter
  | cons s text =>
  have hpat : pat.length ≤ bound := by
    rw [List.length_append] at hbound
    omega
  -- going back gives the last wild token one more symbol
  have hback : greedy wild one n (fixed ++ pat) (taken ++ s :: text).tail
        (some (fixed ++ pat, (taken ++ s :: text).tail)) = true ↔
      ∃ part rest, part ≠ [] ∧ taken ++ s :: text = part ++ rest ∧
        LiteralFirst wild one (fixed ++ pat) rest := by
    obtain ⟨l, tail, hleft⟩ : ∃ l tail, taken ++ s :: text = l :: tail :=
      List.exists_cons_of_ne_nil (by simp)
    rw [hleft] at hn ⊢
    have hsize : tail.length * (bound + 1) + (fixed ++ pat).length < n := by
      rw [List.length_cons, Nat.add_mul, Nat.one_mul] at hn
      omega
    have hagain := @ih [] (fixed ++ pat) [] tail .nil hbound hsize
    rw [List.nil_append, List.nil_append] at hagain
    rw [List.tail_cons, hagain]
    constructor
    · rintro (hmatch | ⟨part, rest, -, rfl, hmatch⟩)
      · exact ⟨[l], tail, List.cons_ne_nil _ _, rfl, hmatch⟩
      · exact ⟨l :: part, rest, List.cons_ne_nil _ _, rfl, hmatch⟩
    · rintro ⟨part, rest, hpart, hsplit, hmatch⟩
      obtain ⟨l', part, rfl⟩ := List.exists_cons_of_ne_nil hpart
      cases hsplit
      by_cases hempty : part = []
      · rw [hempty]
        exact Or.inl hmatch
      · exact Or.inr ⟨part, rest, hempty, rfl, hmatch⟩
  cases pat with
  | nil =>
      rw [greedy, hback]
      exact (or_iff_right (List.cons_ne_nil s text)).symm
  | cons c rest =>
      rw [greedy]
      rw [List.length_cons] at hn hpat
      by_cases hone : one c s = true
      · have hstep := @ih (fixed ++ [c]) rest (taken ++ [s]) text
          (List.rel_append hfixed (.cons hone .nil)) (by simpa using hbound)
          (by rw [List.append_assoc, List.singleton_append]; omega)
        simp only [List.append_assoc, List.singleton_append] at hstep
        rw [if_pos hone, hstep, literalFirst_one hone]
      rw [if_neg hone]
      rw [Bool.not_eq_true] at hone
      by_cases hc : wild c = true
      · have hhead : ∀ x ∈ (s :: text).head?, one c x = false := by
          intro x hx
          obtain rfl := Option.some.inj hx
          exact hone
        have htext : (s :: text).length * (bound + 1) ≤
            (taken ++ s :: text).length * (bound + 1) := by
          refine Nat.mul_le_mul_right _ ?_
          rw [List.length_append]
          exact Nat.le_add_left _ _
        have hstep := @ih [] rest [] (s :: text) .nil (by rw [List.nil_append]; omega)
          (by rw [List.nil_append]; omega)
        rw [List.nil_append, List.nil_append] at hstep
        rw [if_pos hc, hstep]
        constructor
        · intro h
          refine Or.inl ((literalFirst_wild hc hhead).mpr ?_)
          rcases h with h | ⟨part, rest', -, hsplit, h⟩
          · exact ⟨[], s :: text, rfl, h⟩
          · exact ⟨part, rest', hsplit, h⟩
        · intro h
          have hmatch : LiteralFirst wild one (c :: rest) (s :: text) := by
            rcases h with h | ⟨part, rest', -, hsplit, h⟩
            · exact h
            · obtain ⟨before, after, heq, hafter⟩ := LiteralFirst.behind hfixed hsplit h
              rw [heq] at hhead ⊢
              exact LiteralFirst.absorb hc hhead hafter
          obtain ⟨part, rest', hsplit, h⟩ := (literalFirst_wild hc hhead).mp hmatch
          by_cases hpart : part = []
          · rw [hpart, List.nil_append] at hsplit
            exact Or.inl (hsplit ▸ h)
          · exact Or.inr ⟨part, rest', hpart, hsplit, h⟩
      · rw [Bool.not_eq_true] at hc
        rw [if_neg (by rw [hc]; exact Bool.false_ne_true), hback]
        exact (or_iff_right (not_literalFirst hone hc)).symm

/-- **What greedy matching decides.** -/
theorem greedy_literalFirst {n bound : Nat} {pat : List τ} {text : List σ}
    (hbound : pat.length ≤ bound) (hn : (text.length + 1) * (bound + 1) + pat.length < n) :
    greedy wild one n pat text none = true ↔ LiteralFirst wild one pat text := by
  induction n generalizing pat text with
  | zero => omega
  | succ n ih =>
  cases text with
  | nil => rw [greedy, literalFirst_nil_right]
  | cons s text =>
  cases pat with
  | nil =>
      rw [greedy, LiteralFirst]
      exact iff_of_false Bool.false_ne_true (List.cons_ne_nil s text)
  | cons c rest =>
  rw [greedy]
  rw [List.length_cons] at hn hbound
  have hsize : (text.length + 1 + 1) * (bound + 1) =
      (text.length + 1) * (bound + 1) + (bound + 1) := by
    ring
  rw [List.length_cons, hsize] at hn
  by_cases hone : one c s = true
  · rw [if_pos hone, literalFirst_one hone, ih (by omega) (by omega)]
  rw [if_neg hone]
  rw [Bool.not_eq_true] at hone
  by_cases hc : wild c = true
  · have hhead : ∀ x ∈ (s :: text).head?, one c x = false := by
      intro x hx
      obtain rfl := Option.some.inj hx
      exact hone
    have hstep := @greedy_some _ _ wild one n bound [] rest [] (s :: text) .nil
      (by rw [List.nil_append]; omega) (by rw [List.nil_append, List.length_cons]; omega)
    rw [List.nil_append, List.nil_append] at hstep
    rw [if_pos hc, literalFirst_wild hc hhead, hstep]
    constructor
    · rintro (h | ⟨part, rest', -, hsplit, h⟩)
      · exact ⟨[], s :: text, rfl, h⟩
      · exact ⟨part, rest', hsplit, h⟩
    · rintro ⟨part, rest', hsplit, h⟩
      by_cases hpart : part = []
      · rw [hpart, List.nil_append] at hsplit
        exact Or.inl (hsplit ▸ h)
      · exact Or.inr ⟨part, rest', hpart, hsplit, h⟩
  · rw [Bool.not_eq_true] at hc
    rw [if_neg (by rw [hc]; exact Bool.false_ne_true)]
    exact iff_of_false Bool.false_ne_true (not_literalFirst hone hc)

/-- **Greedy matching decides the relation where no wild token matches as an ordinary one.** -/
theorem greedy_iff {good : σ → Prop} (hgood : ∀ c s, good s → wild c = true → one c s = false)
    {n bound : Nat} {pat : List τ} {text : List σ} (htext : ∀ s ∈ text, good s)
    (hbound : pat.length ≤ bound) (hn : (text.length + 1) * (bound + 1) + pat.length < n) :
    greedy wild one n pat text none = true ↔ Spans wild one pat text := by
  rw [greedy_literalFirst hbound hn]
  exact literalFirst_iff_spans fun tok _ s hs hwild => hgood tok s (htext s hs) hwild

/-! ## Marking what can be reached -/

/-- Marks the successors of each marked number below `n`, in order. -/
def sweep (succ : Nat → List Nat) (n : Nat) (marks : List Bool) : List Bool :=
  (List.range n).foldl (fun marks a =>
    if marks.getD a false then (succ a).foldl (fun marks b => marks.set b true) marks
      else marks) marks

theorem length_foldl_set (bs : List Nat) (marks : List Bool) :
    (bs.foldl (fun marks b => marks.set b true) marks).length = marks.length := by
  induction bs generalizing marks with
  | nil => rfl
  | cons b bs ih => rw [List.foldl_cons, ih, List.length_set]

theorem getD_foldl_set {bs : List Nat} {marks : List Bool} {x : Nat} (hx : x < marks.length) :
    (bs.foldl (fun marks b => marks.set b true) marks).getD x false = true ↔
      x ∈ bs ∨ marks.getD x false = true := by
  induction bs generalizing marks with
  | nil => simp
  | cons b bs ih =>
      rw [List.foldl_cons, ih (by rwa [List.length_set]), List.mem_cons]
      by_cases hxb : x = b
      · subst hxb
        simp [List.getD_eq_getElem?_getD, hx]
      · simp [List.getD_eq_getElem?_getD, Ne.symm hxb, hxb]

/-- The marks so far: the start, and the successors of what was reached below `n`. -/
def Swept (succ : Nat → List Nat) (size n : Nat) (marks : List Bool) : Prop :=
  marks.length = size ∧ ∀ b, b < size → (marks.getD b false = true ↔
    b = 0 ∨ ∃ a, a < n ∧ Relation.ReflTransGen (fun a b => b ∈ succ a) 0 a ∧ b ∈ succ a)

/-- A number is reached from a smaller one. -/
theorem reached_iff {succ : Nat → List Nat} (hup : ∀ a b, b ∈ succ a → a < b) {n : Nat} :
    Relation.ReflTransGen (fun a b => b ∈ succ a) 0 n ↔
      n = 0 ∨ ∃ a, a < n ∧ Relation.ReflTransGen (fun a b => b ∈ succ a) 0 a ∧ n ∈ succ a := by
  constructor
  · intro h
    cases h with
    | refl => exact Or.inl rfl
    | tail ha hstep => exact Or.inr ⟨_, hup _ _ hstep, ha, hstep⟩
  · rintro (rfl | ⟨a, -, ha, hstep⟩)
    · exact .refl
    · exact ha.tail hstep

theorem Swept.step {succ : Nat → List Nat} (hup : ∀ a b, b ∈ succ a → a < b) {size n : Nat}
    {marks : List Bool} (h : Swept succ size n marks) (hn : n < size) :
    Swept succ size (n + 1)
      (if marks.getD n false then (succ n).foldl (fun marks b => marks.set b true) marks
        else marks) := by
  obtain ⟨hlen, hmarks⟩ := h
  have hreached : marks.getD n false = true ↔
      Relation.ReflTransGen (fun a b => b ∈ succ a) 0 n := by
    rw [hmarks n hn, reached_iff hup]
  by_cases hmark : marks.getD n false = true
  · rw [if_pos hmark]
    refine ⟨by rw [length_foldl_set, hlen], fun b hb => ?_⟩
    rw [getD_foldl_set (hlen ▸ hb), hmarks b hb]
    constructor
    · rintro (hsucc | rfl | ⟨a, ha, hra, hstep⟩)
      · exact Or.inr ⟨n, Nat.lt_succ_self n, hreached.mp hmark, hsucc⟩
      · exact Or.inl rfl
      · exact Or.inr ⟨a, Nat.lt_succ_of_lt ha, hra, hstep⟩
    · rintro (rfl | ⟨a, ha, hra, hstep⟩)
      · exact Or.inr (Or.inl rfl)
      · rcases Nat.lt_succ_iff_lt_or_eq.mp ha with ha | rfl
        · exact Or.inr (Or.inr ⟨a, ha, hra, hstep⟩)
        · exact Or.inl hstep
  · rw [if_neg hmark]
    refine ⟨hlen, fun b hb => ?_⟩
    rw [hmarks b hb]
    refine or_congr_right ⟨?_, ?_⟩
    · rintro ⟨a, ha, hra, hstep⟩
      exact ⟨a, Nat.lt_succ_of_lt ha, hra, hstep⟩
    · rintro ⟨a, ha, hra, hstep⟩
      rcases Nat.lt_succ_iff_lt_or_eq.mp ha with ha | rfl
      · exact ⟨a, ha, hra, hstep⟩
      · exact absurd (hreached.mpr hra) hmark

/-- **Where successors are larger, one pass marks just what can be reached.** -/
theorem getD_sweep {succ : Nat → List Nat} (hup : ∀ a b, b ∈ succ a → a < b) {size b : Nat}
    (hb : b < size) :
    (sweep succ size ((List.replicate size false).set 0 true)).getD b false = true ↔
      Relation.ReflTransGen (fun a b => b ∈ succ a) 0 b := by
  have hswept : ∀ n, n ≤ size →
      Swept succ size n (sweep succ n ((List.replicate size false).set 0 true)) := by
    intro n hn
    induction n with
    | zero =>
        refine ⟨by simp [sweep], fun b hb => ?_⟩
        simp only [sweep, List.range_zero, List.foldl_nil, Nat.not_lt_zero, false_and,
          exists_false, or_false]
        by_cases hb0 : b = 0
        · simp [List.getD_eq_getElem?_getD, hb0, Nat.lt_of_le_of_lt (Nat.zero_le _) hb]
        · simp [List.getD_eq_getElem?_getD, Ne.symm hb0, hb0, hb]
    | succ n ih =>
        have hstep := (ih (Nat.le_of_succ_le hn)).step hup (Nat.lt_of_succ_le hn)
        rwa [sweep, List.range_succ, List.foldl_append, List.foldl_cons, List.foldl_nil]
  rw [(hswept size le_rfl).2 b hb, reached_iff hup]
  refine or_congr_right ⟨?_, ?_⟩
  · rintro ⟨a, -, hra, hstep⟩
    exact ⟨a, hup _ _ hstep, hra, hstep⟩
  · rintro ⟨a, ha, hra, hstep⟩
    exact ⟨a, ha.trans hb, hra, hstep⟩

/-- A loop in a loop, as one. -/
theorem foldl_range_range {α : Type} (f : α → Nat → α) (a b : Nat) (x : α) :
    (List.range a).foldl (fun r i => (List.range b).foldl (fun r j => f r (i * b + j)) r) x =
      (List.range (a * b)).foldl f x := by
  induction a with
  | zero => simp
  | succ a ih =>
      rw [List.range_succ, List.foldl_append, ih, Nat.add_mul, Nat.one_mul, List.range_add,
        List.foldl_append, List.foldl_map, List.foldl_cons, List.foldl_nil]

/-! ## Which prefixes match which -/

/-- What row `i`, column `j` leads to: a wild token takes nothing or one symbol more, another
token one symbol. -/
def cellSteps (wild : τ → Bool) (one : τ → σ → Bool) (toks : List τ) (syms : List σ)
    (i j : Nat) : List Nat :=
  let width := syms.length + 1
  match toks[i]? with
  | none => []
  | some tok =>
    if wild tok then ((i + 1) * width + j) :: (if j < syms.length then
      [i * width + (j + 1)] else [])
    else match syms[j]? with
      | some s => if one tok s then [(i + 1) * width + (j + 1)] else []
      | none => []

/-- Marks row `i`, column `j` if the first `i` tokens match the first `j` symbols. -/
def table (wild : τ → Bool) (one : τ → σ → Bool) (toks : List τ) (syms : List σ) : List Bool :=
  let width := syms.length + 1
  (List.range (toks.length + 1)).foldl (fun reach i => (List.range width).foldl (fun reach j =>
    if reach.getD (i * width + j) false then
      (cellSteps wild one toks syms i j).foldl (fun reach b => reach.set b true) reach
    else reach) reach) ((List.replicate ((toks.length + 1) * width) false).set 0 true)

theorem mem_cellSteps {toks : List τ} {syms : List σ} {i j b : Nat} :
    b ∈ cellSteps wild one toks syms i j ↔ ∃ tok, toks[i]? = some tok ∧
      (wild tok = true ∧ (b = (i + 1) * (syms.length + 1) + j ∨
          j < syms.length ∧ b = i * (syms.length + 1) + (j + 1)) ∨
        wild tok = false ∧ ∃ s, syms[j]? = some s ∧ one tok s = true ∧
          b = (i + 1) * (syms.length + 1) + (j + 1)) := by
  rw [cellSteps]
  cases toks[i]? with
  | none => simp
  | some tok =>
      cases hw : wild tok with
      | true =>
          by_cases hj : j < syms.length
          · simp [hw, hj]
          · simp [hw, hj]
      | false =>
          cases syms[j]? with
          | none => simp [hw]
          | some s =>
              by_cases hone : one tok s = true
              · simp [hw, hone]
              · simp [hw, hone]

/-- The row and the column of a number. -/
theorem row_column {width i j : Nat} (hj : j < width) :
    (i * width + j) / width = i ∧ (i * width + j) % width = j := by
  have hpos : 0 < width := Nat.lt_of_le_of_lt (Nat.zero_le _) hj
  constructor
  · rw [Nat.mul_comm, Nat.mul_add_div hpos, Nat.div_eq_of_lt hj, Nat.add_zero]
  · rw [Nat.mul_comm, Nat.mul_add_mod, Nat.mod_eq_of_lt hj]

/-- The steps of a cell, by its number. -/
def numberSteps (wild : τ → Bool) (one : τ → σ → Bool) (toks : List τ) (syms : List σ)
    (n : Nat) : List Nat :=
  cellSteps wild one toks syms (n / (syms.length + 1)) (n % (syms.length + 1))

theorem numberSteps_cell {toks : List τ} {syms : List σ} {i j : Nat} (hj : j ≤ syms.length) :
    numberSteps wild one toks syms (i * (syms.length + 1) + j) =
      cellSteps wild one toks syms i j := by
  obtain ⟨hdiv, hmod⟩ := @row_column (syms.length + 1) i _ (Nat.lt_succ_of_le hj)
  rw [numberSteps, hdiv, hmod]

theorem lt_of_mem_numberSteps {toks : List τ} {syms : List σ} {a b : Nat}
    (h : b ∈ numberSteps wild one toks syms a) : a < b := by
  have ha := Nat.div_add_mod a (syms.length + 1)
  rw [Nat.mul_comm] at ha
  have hrow : (a / (syms.length + 1) + 1) * (syms.length + 1) =
      a / (syms.length + 1) * (syms.length + 1) + (syms.length + 1) := by ring
  obtain ⟨tok, -, ⟨-, rfl | ⟨-, rfl⟩⟩ | ⟨-, s, -, -, rfl⟩⟩ := mem_cellSteps.mp h
  · omega
  · omega
  · omega

theorem table_eq (toks : List τ) (syms : List σ) : table wild one toks syms =
    sweep (numberSteps wild one toks syms) ((toks.length + 1) * (syms.length + 1))
      ((List.replicate ((toks.length + 1) * (syms.length + 1)) false).set 0 true) := by
  rw [table, sweep, ← foldl_range_range]
  refine List.foldl_ext _ _ _ fun reach i _ => List.foldl_ext _ _ _ fun reach j hj => ?_
  rw [numberSteps_cell (Nat.le_of_lt_succ (List.mem_range.mp hj))]

/-- A number that is reached says that its tokens match its symbols, or fewer before a wild
token that has taken the others. -/
theorem spans_of_reached {toks : List τ} {syms : List σ} {n : Nat}
    (h : Relation.ReflTransGen (fun a b => b ∈ numberSteps wild one toks syms a) 0 n) :
    ∃ i j k, k ≤ j ∧ j ≤ syms.length ∧ n = i * (syms.length + 1) + j ∧
      Spans wild one (toks.take i) (syms.take k) ∧
      (k = j ∨ ∃ tok, toks[i]? = some tok ∧ wild tok = true) := by
  induction h with
  | refl => exact ⟨0, 0, 0, le_rfl, Nat.zero_le _, by simp, by simp [spans_nil], Or.inl rfl⟩
  | tail _ hstep ih =>
      obtain ⟨i, j, k, hk, hj, rfl, hspans, hmore⟩ := ih
      rw [numberSteps_cell hj] at hstep
      obtain ⟨tok, htok, ⟨hw, rfl | ⟨hlt, rfl⟩⟩ | ⟨hw, s, hs, hone, rfl⟩⟩ := mem_cellSteps.mp hstep
      · refine ⟨i + 1, j, j, le_rfl, hj, rfl, ?_, Or.inl rfl⟩
        rw [List.take_add_one, htok, spans_append]
        refine ⟨syms.take k, (syms.take j).drop k, ?_, hspans, spans_singleton.mpr (Or.inl hw)⟩
        conv_lhs => rw [← List.take_append_drop k (syms.take j), List.take_take, min_eq_left hk]
      · exact ⟨i, j + 1, k, Nat.le_succ_of_le hk, hlt, rfl, hspans, Or.inr ⟨tok, htok, hw⟩⟩
      · obtain ⟨hlt, -⟩ := List.getElem?_eq_some_iff.mp hs
        have hkj : k = j := by
          refine hmore.resolve_right ?_
          rintro ⟨tok', htok', hw'⟩
          rw [htok] at htok'
          cases htok'
          rw [hw] at hw'
          cases hw'
        subst hkj
        refine ⟨i + 1, k + 1, k + 1, le_rfl, hlt, rfl, ?_, Or.inl rfl⟩
        rw [List.take_add_one, htok, List.take_add_one, hs, spans_append]
        exact ⟨syms.take k, [s], rfl, hspans, spans_singleton.mpr (Or.inr ⟨hw, s, rfl, hone⟩)⟩

/-- What matches is reached. -/
theorem reached_of_spans {toks : List τ} {syms : List σ} {i j : Nat} (hi : i ≤ toks.length)
    (hj : j ≤ syms.length) (h : Spans wild one (toks.take i) (syms.take j)) :
    Relation.ReflTransGen (fun a b => b ∈ numberSteps wild one toks syms a) 0
      (i * (syms.length + 1) + j) := by
  induction i generalizing j with
  | zero =>
      rw [List.take_zero, spans_nil, List.take_eq_nil_iff] at h
      have hzero : j = 0 := by
        rcases h with h | rfl
        · exact h
        · simpa using hj
      subst hzero
      simpa using Relation.ReflTransGen.refl
  | succ i ih =>
      have htok : toks[i]? = some toks[i] := List.getElem?_eq_getElem hi
      rw [List.take_add_one, htok, spans_append] at h
      obtain ⟨x, y, hxy, hspans, htake⟩ := h
      rw [Option.toList_some, spans_singleton] at htake
      have hlen : x.length + y.length = j := by
        rw [← List.length_append, ← hxy, List.length_take, min_eq_left hj]
      have hx : x = syms.take x.length := by
        have hprefix : x <+: syms := (hxy ▸ List.prefix_append x y).trans (List.take_prefix j syms)
        exact List.prefix_iff_eq_take.mp hprefix
      rw [hx] at hspans
      have hreach := ih (Nat.le_of_lt hi) (by omega) hspans
      rcases htake with hw | ⟨hw, s, rfl, hone⟩
      · -- the wild token takes the symbols one by one
        have hrun : ∀ k, x.length + k ≤ syms.length →
            Relation.ReflTransGen (fun a b => b ∈ numberSteps wild one toks syms a) 0
              (i * (syms.length + 1) + (x.length + k)) := by
          intro k hk
          induction k with
          | zero => exact hreach
          | succ k ihk =>
              refine (ihk (by omega)).tail ?_
              rw [numberSteps_cell (by omega)]
              exact mem_cellSteps.mpr ⟨_, htok, Or.inl ⟨hw, Or.inr ⟨by omega, rfl⟩⟩⟩
        have hend := hrun y.length (by omega)
        rw [hlen] at hend
        refine hend.tail ?_
        rw [numberSteps_cell hj]
        exact mem_cellSteps.mpr ⟨_, htok, Or.inl ⟨hw, Or.inl rfl⟩⟩
      · rw [List.length_singleton] at hlen
        subst hlen
        refine hreach.tail ?_
        rw [numberSteps_cell (by omega)]
        have hs : syms[x.length]? = some s := by
          have hget := congrArg (fun l => l[x.length]?) hxy
          simpa [List.getElem?_take] using hget
        exact mem_cellSteps.mpr ⟨_, htok, Or.inr ⟨hw, s, hs, hone, rfl⟩⟩

/-- **The last row of the table says which prefixes the tokens match.** -/
theorem getD_table {toks : List τ} {syms : List σ} {j : Nat} (hj : j ≤ syms.length) :
    (table wild one toks syms).getD (toks.length * (syms.length + 1) + j) false = true ↔
      Spans wild one toks (syms.take j) := by
  have hsize : toks.length * (syms.length + 1) + j < (toks.length + 1) * (syms.length + 1) := by
    have hring : (toks.length + 1) * (syms.length + 1) =
        toks.length * (syms.length + 1) + (syms.length + 1) := by ring
    omega
  rw [table_eq, getD_sweep (fun a b h => lt_of_mem_numberSteps h) hsize]
  constructor
  · intro h
    obtain ⟨i, j', k, -, hj', heq, hspans, hmore⟩ := spans_of_reached h
    obtain ⟨hdiv, hmod⟩ := @row_column (syms.length + 1) toks.length _ (Nat.lt_succ_of_le hj)
    obtain ⟨hdiv', hmod'⟩ := @row_column (syms.length + 1) i _ (Nat.lt_succ_of_le hj')
    rw [heq, hdiv'] at hdiv
    rw [heq, hmod'] at hmod
    subst hdiv
    subst hmod
    have hk := hmore.resolve_right (by simp)
    rwa [hk, List.take_length] at hspans
  · intro h
    exact reached_of_spans le_rfl hj (by rwa [List.take_length])

instance (toks : List τ) (syms : List σ) : Decidable (Spans wild one toks syms) :=
  decidable_of_iff ((table wild one toks syms).getD
    (toks.length * (syms.length + 1) + syms.length) false = true)
    ((getD_table le_rfl).trans (by rw [List.take_length]))

/-- What matches depends on the symbols only. -/
theorem spans_congr {one' : τ → σ → Bool} {toks : List τ} {syms : List σ}
    (h : ∀ tok, ∀ s ∈ syms, one tok s = one' tok s) :
    Spans wild one toks syms ↔ Spans wild one' toks syms := by
  induction toks generalizing syms with
  | nil => rw [spans_nil, spans_nil]
  | cons tok toks ih =>
      rw [spans_cons, spans_cons]
      refine exists_congr fun x => exists_congr fun y => and_congr_right fun hxy => ?_
      subst hxy
      rw [ih fun t s hs => h t s (List.mem_append_right x hs)]
      refine and_congr_left fun _ => or_congr_right (and_congr_right fun _ =>
        exists_congr fun s => ?_)
      refine and_congr_right fun hx => ?_
      rw [h tok s (List.mem_append_left y (by rw [hx]; simp))]

end Puregit.Wildcard
