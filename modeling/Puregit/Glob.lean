import Puregit.Ignore

/-! # The wildcard matchers

Components of ignored paths, paths in an attributes file and host names are matched by one
loop, written three times.  It tries a byte of the pattern as an ordinary byte first, so a `*`
of the pattern that stands at a `*` of the text takes it and nothing else.

`globSpec` says what follows: what is matched is in the pattern's language; and all of it is
matched for every text without a `*` and for every pattern without one, and for no others.
-/
namespace Puregit

/-- Whether a byte of a pattern is the wild one. -/
def isStar (c : UInt8) : Bool := c == 42

/-- Whether a byte of a pattern stands for a byte of a text. -/
def fitsByte (c b : UInt8) : Bool := c == 63 || c == b

/-- A number of steps in which the loop ends. -/
def globFuel (pat text : Bytes) : Nat := (text.length + 1) * (pat.length + 1) + pat.length + 1

/-- Matches a path, or its last component, against a pattern of an attributes file. -/
def Attributes.globMatch (pat text : Bytes) : Bool :=
  Wildcard.greedy isStar fitsByte (globFuel pat text) pat text none

/-- Matches a host against a pattern of a configuration. -/
def SshConfig.globMatch (pattern text : Str) : Bool :=
  Wildcard.greedy isStar fitsByte (globFuel (toUtf8 pattern) (toUtf8 text)) (toUtf8 pattern)
    (toUtf8 text) none

/-- The language of a pattern: `*` is any run of bytes, `?` any byte, another byte itself. -/
abbrev Denotes (pat text : Bytes) : Prop := Wildcard.Spans isStar fitsByte pat text

/-- The text is a run for each byte of the pattern, where a `*` that stands at a `*` takes it
and nothing else. -/
abbrev DenotesStars (pat text : Bytes) : Prop := Wildcard.LiteralFirst isStar fitsByte pat text

/-! ## What the loop decides -/

theorem globSeg_iff_denotesStars (pat text : Bytes) :
    globSeg pat text = true ↔ DenotesStars pat text :=
  Wildcard.greedy_literalFirst le_rfl (Nat.lt_succ_self _)

theorem Attributes.globMatch_eq (pat text : Bytes) :
    Attributes.globMatch pat text = globSeg pat text := rfl

theorem SshConfig.globMatch_eq (pattern text : Str) :
    SshConfig.globMatch pattern text = globSeg (toUtf8 pattern) (toUtf8 text) := rfl

theorem fitsByte_self (c : UInt8) : fitsByte c c = true := by
  rw [fitsByte, beq_self_eq_true, Bool.or_true]

theorem fitsByte_eq {c b : UInt8} (hc : isStar c = true) : fitsByte c b = true ↔ b = 42 := by
  obtain rfl := beq_iff_eq.mp hc
  rw [fitsByte, Bool.or_eq_true, beq_iff_eq, beq_iff_eq]
  exact ⟨fun h => h.elim (fun h => absurd h (by decide)) Eq.symm, fun h => Or.inr h.symm⟩

/-- Where the pattern or the text holds no `*`, no `*` stands at one. -/
theorem denotesStars_iff {pat text : Bytes} (h : (42 : UInt8) ∉ pat ∨ (42 : UInt8) ∉ text) :
    DenotesStars pat text ↔ Denotes pat text := by
  refine Wildcard.literalFirst_iff_spans fun c hc b hb hwild => ?_
  rw [← Bool.not_eq_true, fitsByte_eq hwild]
  rintro rfl
  rcases h with h | h
  · exact h (beq_iff_eq.mp hwild ▸ hc)
  · exact h hb

/-! ## Where they differ -/

/-- A pattern and a text that start alike, byte for byte. -/
theorem denotesStars_append {u pat text : Bytes} :
    DenotesStars (u ++ pat) (u ++ text) ↔ DenotesStars pat text := by
  induction u with
  | nil => rfl
  | cons c u ih => exact (Wildcard.literalFirst_one (fitsByte_self c)).trans ih

theorem denotes_append {u pat text : Bytes} (h : Denotes pat text) :
    Denotes (u ++ pat) (u ++ text) := by
  induction u with
  | nil => exact h
  | cons c u ih =>
      cases hc : isStar c with
      | true => exact (Wildcard.spans_wild hc).mpr ⟨[c], u ++ text, rfl, ih⟩
      | false => exact (Wildcard.spans_one hc).mpr ⟨fitsByte_self c, ih⟩

/-- A `*` that should have taken fewer or more bytes than the `*` it stands at. -/
theorem not_denotesStars {u pat text : Bytes} (hpat : (42 : UInt8) ∉ pat)
    (hlen : text.length ≠ pat.length) :
    ¬ DenotesStars (u ++ 42 :: pat) (u ++ 42 :: text) := by
  rw [denotesStars_append]
  intro h
  refine hlen (Wildcard.Spans.length_eq (fun c hc => ?_)
    ((Wildcard.literalFirst_one (fitsByte_self 42)).mp h).spans)
  exact beq_false_of_ne fun heq => hpat (heq ▸ hc)

theorem denotes_replicate (text : Bytes) : Denotes (List.replicate text.length 63) text := by
  induction text with
  | nil => exact Wildcard.spans_nil.mpr rfl
  | cons b text ih => exact (Wildcard.spans_one rfl).mpr ⟨rfl, ih⟩

/-- A pattern that a text with a `*` does not match although it is in its language. -/
theorem missed_by_pattern (u v : Bytes) :
    Denotes (u ++ 42 :: 63 :: List.replicate v.length 63) (u ++ 42 :: v) ∧
      ¬ DenotesStars (u ++ 42 :: 63 :: List.replicate v.length 63) (u ++ 42 :: v) := by
  constructor
  · -- the `*` takes nothing
    exact denotes_append ((Wildcard.spans_wild rfl).mpr ⟨[], 42 :: v, rfl,
      (Wildcard.spans_one rfl).mpr ⟨rfl, denotes_replicate v⟩⟩)
  · refine not_denotesStars (fun h => ?_) ?_
    · rcases List.mem_cons.mp h with h | h
      · exact absurd h (by decide)
      · exact absurd (List.eq_of_mem_replicate h) (by decide)
    · rw [List.length_cons, List.length_replicate]
      exact (Nat.succ_ne_self _).symm

/-- A text that a pattern with a `*`, its last, does not match although it is in its language. -/
theorem missed_by_text (u : Bytes) {w : Bytes} (hw : (42 : UInt8) ∉ w) :
    Denotes (u ++ 42 :: w) (u ++ 42 :: 63 :: w) ∧
      ¬ DenotesStars (u ++ 42 :: w) (u ++ 42 :: 63 :: w) := by
  constructor
  · have hself := @denotes_append w [] [] (Wildcard.spans_nil.mpr rfl)
    rw [List.append_nil] at hself
    exact denotes_append ((Wildcard.spans_wild rfl).mpr ⟨[42, 63], w, rfl, hself⟩)
  · refine not_denotesStars hw ?_
    rw [List.length_cons]
    exact Nat.succ_ne_self _

/-- The last of some equal members of a list. -/
theorem exists_last_mem {α : Type} {a : α} {l : List α} (h : a ∈ l) :
    ∃ u w, l = u ++ a :: w ∧ a ∉ w := by
  obtain ⟨w, u, heq, hw⟩ := List.eq_append_cons_of_mem (List.mem_reverse.mpr h)
  exact ⟨u.reverse, w.reverse, by simpa using congrArg List.reverse heq, by simpa using hw⟩

/-! ## The three matchers -/

/-- Where a matcher of patterns and texts, encoded as bytes, decides the language. -/
structure GlobSpec {α : Type} (encode : α → Bytes) (globMatch : α → α → Bool)
    (pat text : α) : Prop where
  /-- What is matched is in the language. -/
  sound : globMatch pat text = true → Denotes (encode pat) (encode text)
  /-- A text is judged rightly unless it is in the language only with a `*` that stands at a
  `*` and takes another run than it. -/
  pair : (globMatch pat text = true ↔ Denotes (encode pat) (encode text)) ↔
    (Denotes (encode pat) (encode text) → DenotesStars (encode pat) (encode text))
  /-- A text is judged rightly by every pattern just if it holds no `*`. -/
  everyPattern : (∀ pat, globMatch pat text = true ↔ Denotes (encode pat) (encode text)) ↔
    42 ∉ encode text
  /-- A pattern judges every text rightly just if it holds no `*`. -/
  everyText : (∀ text, globMatch pat text = true ↔ Denotes (encode pat) (encode text)) ↔
    42 ∉ encode pat

section
variable {α : Type} {encode : α → Bytes} {globMatch : α → α → Bool}

/-- What is asked of an encoding: behind the last `*` of a text other bytes can be put. -/
theorem globSpec_of_encode (hmatch : ∀ pat text, globMatch pat text = globSeg (encode pat)
    (encode text)) (hencode : ∀ s, 42 ∈ encode s → ∃ u v, encode s = u ++ 42 :: v ∧ 42 ∉ v ∧
      (∃ pat, encode pat = u ++ 42 :: 63 :: List.replicate v.length 63) ∧
      ∃ text, encode text = u ++ 42 :: 63 :: v) (pat text : α) :
        GlobSpec encode globMatch pat text := by
  have hiff : ∀ pat text, globMatch pat text = true ↔ DenotesStars (encode pat) (encode text) := by
    intro pat text
    rw [hmatch, globSeg_iff_denotesStars]
  refine ⟨fun h => ((hiff pat text).mp h).spans, ?_, ?_, ?_⟩
  · rw [hiff]
    exact ⟨fun h => h.mpr, fun h => ⟨Wildcard.LiteralFirst.spans, h⟩⟩
  · constructor
    · intro hall hstar
      obtain ⟨u, v, heq, -, ⟨pat, hpat⟩, -⟩ := hencode text hstar
      obtain ⟨hdenotes, hmissed⟩ := missed_by_pattern u v
      have hright := hall pat
      rw [hiff, hpat, heq] at hright
      exact hmissed (hright.mpr hdenotes)
    · intro hstar pat
      rw [hiff, denotesStars_iff (Or.inr hstar)]
  · constructor
    · intro hall hstar
      obtain ⟨u, v, heq, hv, -, ⟨text, htext⟩⟩ := hencode pat hstar
      obtain ⟨hdenotes, hmissed⟩ := missed_by_text u hv
      have hright := hall text
      rw [hiff, htext, heq] at hright
      exact hmissed (hright.mpr hdenotes)
    · intro hstar text
      rw [hiff, denotesStars_iff (Or.inl hstar)]

end

theorem globSpec_bytes {globMatch : Bytes → Bytes → Bool}
    (h : ∀ pat text, globMatch pat text = globSeg pat text) (pat text : Bytes) :
    GlobSpec id globMatch pat text := by
  refine globSpec_of_encode h (fun s hstar => ?_) pat text
  obtain ⟨u, v, heq, hv⟩ := exists_last_mem hstar
  exact ⟨u, v, heq, hv, ⟨_, rfl⟩, _, rfl⟩

/-- A `*` in a text is one in its bytes, and stands at a boundary of its characters. -/
theorem globSpec_str {globMatch : Str → Str → Bool}
    (h : ∀ pat text, globMatch pat text = globSeg (toUtf8 pat) (toUtf8 text)) (pat text : Str) :
    GlobSpec toUtf8 globMatch pat text := by
  refine globSpec_of_encode h (fun s hstar => ?_) pat text
  obtain ⟨u, w, rfl, hw⟩ := exists_last_mem ((ascii_mem_toUtf8 (by decide)).mp hstar)
  have hstr : ∀ rest : Str, toUtf8 (u ++ '*' :: rest) = toUtf8 u ++ 42 :: toUtf8 rest := by
    intro rest
    rw [toUtf8_append, toUtf8_cons]
    rfl
  have hmarks : ∀ n, toUtf8 (List.replicate n '?') = List.replicate n 63 := by
    intro n
    induction n with
    | zero => rfl
    | succ n ih =>
        rw [List.replicate_succ, toUtf8_cons, ih, List.replicate_succ]
        rfl
  refine ⟨toUtf8 u, toUtf8 w, hstr w, fun hmem => hw ((ascii_mem_toUtf8 (by decide)).mp hmem),
    ⟨u ++ '*' :: List.replicate ((toUtf8 w).length + 1) '?', ?_⟩, u ++ '*' :: '?' :: w, ?_⟩
  · rw [hstr, hmarks, List.replicate_succ]
  · rw [hstr, toUtf8_cons]
    rfl

/-- **The three wildcard matchers** match only what is in the pattern's language, and all of
it but for a `*` of the pattern that stands at a `*` of the text. -/
theorem globSpec (pat text : Bytes) (hostPattern host : Str) :
    GlobSpec id globSeg pat text ∧ GlobSpec id Attributes.globMatch pat text ∧
      GlobSpec toUtf8 SshConfig.globMatch hostPattern host :=
  ⟨globSpec_bytes (fun _ _ => rfl) pat text, globSpec_bytes Attributes.globMatch_eq pat text,
    globSpec_str SshConfig.globMatch_eq hostPattern host⟩

/-- The pattern `*` denotes the text `*x`, and no matcher matches it. -/
theorem globMatch_star : Denotes (bytes "*") (bytes "*x") ∧
    globSeg (bytes "*") (bytes "*x") = false ∧
    Attributes.globMatch (bytes "*") (bytes "*x") = false ∧
      SshConfig.globMatch (str "*") (str "*x") = false := by
  refine ⟨(Wildcard.spans_wild rfl).mpr ⟨bytes "*x", [], rfl, Wildcard.spans_nil.mpr rfl⟩, ?_⟩
  decide

end Puregit
