import Puregit.DiffMerge

/-! # Lines

`splitLines` cuts a buffer behind its newlines.  A list of lines is what it gives for
some buffer exactly when every line but the last is terminated, `Lines`; it then gives
back the lines of what they make up.
-/
namespace Puregit.Diff

/-- A line with its newline. -/
def Terminated (l : Bytes) : Prop := ∃ s, 10 ∉ s ∧ l = s ++ [10]

/-- A last line without one. -/
def Unterminated (l : Bytes) : Prop := l ≠ [] ∧ 10 ∉ l

/-- The buffer is not empty and does not end in a newline. -/
def LacksNewline (data : Bytes) : Prop := ∃ b, data.getLast? = some b ∧ b ≠ 10

/-- The lists of lines of buffers. -/
def Lines : List Bytes → Prop
  | [] => True
  | l :: ls => Terminated l ∧ Lines ls ∨ Unterminated l ∧ ls = []

theorem Terminated.getLast? {l : Bytes} (h : Terminated l) : l.getLast? = some 10 := by
  obtain ⟨s, -, rfl⟩ := h
  exact List.getLast?_concat

theorem Unterminated.not_terminated {l : Bytes} (h : Unterminated l) : ¬ Terminated l := by
  rintro ⟨s, -, rfl⟩
  exact h.2 (List.mem_append_right _ (List.mem_singleton_self _))

theorem Unterminated.lacksNewline {l : Bytes} (h : Unterminated l) : LacksNewline l := by
  refine ⟨l.getLast h.1, List.getLast?_eq_some_getLast h.1, fun heq => h.2 ?_⟩
  rw [← heq]
  exact List.getLast_mem h.1

/-! ## Splitting what lines make up -/

theorem splitLinesGo_append {s : Bytes} (h : 10 ∉ s) (acc rest : Bytes) :
    splitLinesGo acc (s ++ rest) = splitLinesGo (s.reverse ++ acc) rest := by
  induction s generalizing acc with
  | nil => rfl
  | cons b s ih =>
      have hb : b ≠ 10 := fun heq => h (heq ▸ List.mem_cons_self)
      rw [List.cons_append, splitLinesGo, if_neg hb, ih fun hin => h (List.mem_cons_of_mem b hin),
        List.reverse_cons, List.append_assoc]
      rfl

theorem splitLines_terminated {l : Bytes} (h : Terminated l) (rest : Bytes) :
    splitLines (l ++ rest) = l :: splitLines rest := by
  obtain ⟨s, hs, rfl⟩ := h
  rw [splitLines, List.append_assoc, splitLinesGo_append hs, List.singleton_append,
    splitLinesGo, if_pos rfl,
    List.append_nil, List.reverse_cons, List.reverse_reverse]
  rfl

theorem splitLines_unterminated {l : Bytes} (h : Unterminated l) : splitLines l = [l] := by
  have hgo := splitLinesGo_append h.2 [] []
  rw [List.append_nil, List.append_nil] at hgo
  rw [splitLines, hgo, splitLinesGo, if_neg, List.reverse_reverse]
  simpa using h.1

/-- **Lines are the lines of what they make up.** -/
theorem splitLines_flatten {ls : List Bytes} (h : Lines ls) : splitLines ls.flatten = ls := by
  induction ls with
  | nil => rfl
  | cons l ls ih =>
      rw [List.flatten_cons]
      rcases h with ⟨hl, hls⟩ | ⟨hl, rfl⟩
      · rw [splitLines_terminated hl, ih hls]
      · rw [List.flatten_nil, List.append_nil, splitLines_unterminated hl]

theorem lines_splitLinesGo (data : Bytes) :
    ∀ {acc : Bytes}, 10 ∉ acc → Lines (splitLinesGo acc data) := by
  induction data with
  | nil =>
      intro acc hacc
      rw [splitLinesGo]
      split
      · trivial
      · rename_i hne
        refine Or.inr ⟨⟨?_, ?_⟩, rfl⟩
        · simpa using hne
        · simpa using hacc
  | cons b data ih =>
      intro acc hacc
      rw [splitLinesGo]
      split
      · rename_i hb
        refine Or.inl ⟨⟨acc.reverse, by simpa using hacc, ?_⟩, ih List.not_mem_nil⟩
        rw [hb, List.reverse_cons]
      · rename_i hb
        refine ih fun hin => ?_
        rcases List.mem_cons.mp hin with heq | hin
        · exact hb heq.symm
        · exact hacc hin

/-- **Splitting gives lines.** -/
theorem lines_splitLines (data : Bytes) : Lines (splitLines data) :=
  lines_splitLinesGo data List.not_mem_nil

/-! ## Lists of lines -/

/-- A line before another is terminated. -/
theorem Lines.terminated {l : Bytes} : ∀ {xs ys : List Bytes}, Lines (xs ++ l :: ys) → ys ≠ [] →
    Terminated l
  | [], ys, h, hne => by
      rcases h with ⟨hl, -⟩ | ⟨-, hnil⟩
      · exact hl
      · exact absurd hnil hne
  | x :: xs, ys, h, hne => by
      rcases h with ⟨-, hrest⟩ | ⟨-, hnil⟩
      · exact hrest.terminated hne
      · simp at hnil

theorem Lines.terminated_at {ls : List Bytes} (h : Lines ls) {i : Nat} {l : Bytes}
    (hl : ls[i]? = some l) (hi : i + 1 < ls.length) : Terminated l := by
  obtain ⟨hlt, hl⟩ := List.getElem?_eq_some_iff.mp hl
  have hsplit : ls = ls.take i ++ l :: ls.drop (i + 1) := by
    rw [← hl, ← List.drop_eq_getElem_cons hlt, List.take_append_drop]
  rw [hsplit] at h
  refine h.terminated fun hnil => ?_
  have hlen := congrArg List.length hnil
  rw [List.length_drop, List.length_nil] at hlen
  omega

theorem Lines.append {xs ys : List Bytes} (hxs : ∀ l ∈ xs, Terminated l) (hys : Lines ys) :
    Lines (xs ++ ys) := by
  induction xs with
  | nil => exact hys
  | cons x xs ih =>
      exact Or.inl ⟨hxs x List.mem_cons_self, ih fun l hl => hxs l (List.mem_cons_of_mem x hl)⟩

theorem Lines.drop {ls : List Bytes} (h : Lines ls) (n : Nat) : Lines (ls.drop n) := by
  induction ls generalizing n with
  | nil =>
      rw [List.drop_nil]
      trivial
  | cons l ls ih =>
      cases n with
      | zero => exact h
      | succ n =>
          rcases h with ⟨-, hls⟩ | ⟨-, rfl⟩
          · exact ih hls n
          · rw [List.drop_succ_cons, List.drop_nil]
            trivial

/-- All lines are terminated, or all but the last. -/
theorem Lines.all_or_last {ls : List Bytes} (h : Lines ls) : (∀ l ∈ ls, Terminated l) ∨
    ∃ xs l, ls = xs ++ [l] ∧ (∀ x ∈ xs, Terminated x) ∧ Unterminated l := by
  induction ls with
  | nil => exact Or.inl fun l hl => by cases hl
  | cons l ls ih =>
      rcases h with ⟨hl, hls⟩ | ⟨hl, rfl⟩
      · rcases ih hls with hall | ⟨xs, last, rfl, hxs, hlast⟩
        · refine Or.inl fun x hx => ?_
          rcases List.mem_cons.mp hx with rfl | hx
          · exact hl
          · exact hall x hx
        · refine Or.inr ⟨l :: xs, last, rfl, fun x hx => ?_, hlast⟩
          rcases List.mem_cons.mp hx with rfl | hx
          · exact hl
          · exact hxs x hx
      · exact Or.inr ⟨[], l, rfl, nofun, hl⟩

/-- Where all lines are terminated, the buffer is. -/
theorem getLast?_flatten_terminated {ls : List Bytes} (h : ∀ l ∈ ls, Terminated l) :
    ls.flatten = [] ∨ ls.flatten.getLast? = some 10 := by
  induction ls using List.reverseRecOn with
  | nil => exact Or.inl rfl
  | append_singleton ls l _ =>
      have hl := h l (List.mem_append_right _ (List.mem_singleton_self l))
      refine Or.inr ?_
      rw [List.flatten_append, List.flatten_singleton, List.getLast?_append, hl.getLast?]
      rfl

/-- The last line says how the buffer ends. -/
theorem lacksNewline_iff {data : Bytes} : LacksNewline data ↔
    ∃ xs l, splitLines data = xs ++ [l] ∧ (∀ x ∈ xs, Terminated x) ∧ Unterminated l := by
  rcases (lines_splitLines data).all_or_last with hall | hlast
  · constructor
    · rintro ⟨b, hb, hne⟩
      rw [← flatten_splitLines data] at hb
      rcases getLast?_flatten_terminated hall with hnil | hnl
      · rw [hnil] at hb
        cases hb
      · rw [hnl] at hb
        cases hb
        exact absurd rfl hne
    · rintro ⟨xs, l, hsplit, -, hl⟩
      exact absurd (hall l (by rw [hsplit]; simp)) hl.not_terminated
  · refine ⟨fun _ => hlast, fun _ => ?_⟩
    obtain ⟨xs, l, hsplit, -, hl⟩ := hlast
    obtain ⟨b, hb, hne⟩ := hl.lacksNewline
    refine ⟨b, ?_, hne⟩
    rw [← flatten_splitLines data, hsplit, List.flatten_append, List.flatten_singleton,
      List.getLast?_append, hb]
    rfl

end Puregit.Diff
