import Puregit.Config

/-! # A written configuration is read back

Between quotes every character is read back; outside, a space at either end is the only
one the writer looks for, while the reader also trims and folds carriage returns and form
feeds.  `reread` is what a written value is read as, `Survives` says when that is the
value, and `parse_serialize` reads a whole configuration back.
-/
namespace Puregit
namespace Config

/-! ## Values -/

/-- A character that unquoted text holds as it is and that is read as a space. -/
def isFolded (c : Char) : Bool := c = ' ' || c = formFeed || c = '\r'

/-- An escaped character is one character after a backslash, or itself. -/
theorem escapeChar_cases (c : Char) :
    (∃ e, escapeChar c = ['\\', e] ∧ unescape e = some c ∧ e ≠ '\n' ∧ e ≠ '\r' ∧
      isFolded c = false) ∨
      (escapeChar c = [c] ∧ c ≠ '\n' ∧ c ≠ '\t' ∧ c ≠ '"' ∧ c ≠ '\\') := by
  unfold escapeChar
  by_cases h1 : c = '\n'
  · subst h1
    exact Or.inl ⟨'n', by decide, by decide, by decide, by decide, by decide⟩
  by_cases h2 : c = '\t'
  · subst h2
    exact Or.inl ⟨'t', by decide, by decide, by decide, by decide, by decide⟩
  by_cases h3 : c = backspace
  · subst h3
    exact Or.inl ⟨'b', by decide, by decide, by decide, by decide, by decide⟩
  by_cases h4 : c = '"'
  · subst h4
    exact Or.inl ⟨'"', by decide, by decide, by decide, by decide, by decide⟩
  by_cases h5 : c = '\\'
  · subst h5
    exact Or.inl ⟨'\\', by decide, by decide, by decide, by decide, by decide⟩
  · rw [if_neg h1, if_neg h2, if_neg h3, if_neg h4, if_neg h5]
    exact Or.inr ⟨rfl, h1, h2, h4, h5⟩

section
variable {out r : Str} {q : Bool} {pending line : Nat}

theorem valueGo_escape {e u : Char} (hu : unescape e = some u) (hn : e ≠ '\n') (hr : e ≠ '\r') :
    valueGo out q false pending line ('\\' :: e :: r) =
      valueGo (out ++ List.replicate pending ' ' ++ [u]) q false 0 line r := by
  rw [valueGo, if_neg (by decide), if_neg (by decide),
    if_neg (by simp [show isAsciiWhitespace '\\' = false by decide]),
    if_neg (by simp), if_pos rfl]
  split
  · rename_i heq
    exact absurd (List.cons.inj heq).1 hn
  · rename_i heq
    exact absurd (List.cons.inj heq).1 hr
  · rename_i heq
    obtain ⟨rfl, rfl⟩ := List.cons.inj heq
    rw [hu]
  · rename_i heq
    cases heq

theorem valueGo_plain {c : Char} (hc : c ≠ '\n' ∧ c ≠ '\\' ∧ c ≠ '"')
    (hq : q = true ∨ (isAsciiWhitespace c = false ∧ c ≠ '#' ∧ c ≠ ';')) :
    valueGo out q false pending line (c :: r) =
      valueGo (out ++ List.replicate pending ' ' ++ [c]) q false 0 line r := by
  have hws : ¬(isAsciiWhitespace c && !q) = true := by
    rcases hq with rfl | hq
    · simp
    · simp [hq.1]
  have hcomment : ¬(!q && (decide (c = '#') || decide (c = ';'))) = true := by
    rcases hq with rfl | hq
    · simp
    · simp [hq.2.1, hq.2.2]
  rw [valueGo, if_neg hc.1, if_neg (by decide), if_neg hws, if_neg hcomment, if_neg hc.2.1,
    if_neg hc.2.2]

/-- A written character is read back, unless it is white space or starts a comment
outside quotes. -/
theorem valueGo_char {c : Char} (hq : q = true ∨ (isFolded c = false ∧ c ≠ '#' ∧ c ≠ ';')) :
    valueGo out q false pending line (escapeChar c ++ r) =
      valueGo (out ++ List.replicate pending ' ' ++ [c]) q false 0 line r := by
  rcases escapeChar_cases c with ⟨e, he, hu, hn, hr, -⟩ | ⟨hc, hn, ht, hquote, hback⟩
  · rw [he]
    exact valueGo_escape hu hn hr
  · rw [hc]
    refine valueGo_plain ⟨hn, hback, hquote⟩ (hq.imp_right fun h => ⟨?_, h.2⟩)
    have hfolded := h.1
    unfold isFolded at hfolded
    unfold isAsciiWhitespace
    simp only [Bool.or_eq_false_iff, decide_eq_false_iff_not] at hfolded ⊢
    exact ⟨⟨⟨⟨hfolded.1.1, ht⟩, hn⟩, hfolded.1.2⟩, hfolded.2⟩

/-- White space outside quotes is due before the next character. -/
theorem valueGo_space {c : Char} (hc : isFolded c = true) :
    valueGo out false false pending line (escapeChar c ++ r) =
      valueGo out false false (if out.isEmpty then pending else pending + 1) line r := by
  rcases escapeChar_cases c with ⟨e, -, -, -, -, hfolded⟩ | ⟨hself, hn, -, -, -⟩
  · rw [hc] at hfolded
    cases hfolded
  · have hws : isAsciiWhitespace c = true := by
      unfold isFolded at hc
      unfold isAsciiWhitespace
      simp only [Bool.or_eq_true, decide_eq_true_eq] at hc ⊢
      rcases hc with (h | h) | h
      · exact Or.inl (Or.inl (Or.inl (Or.inl h)))
      · exact Or.inl (Or.inr h)
      · exact Or.inr h
    rw [hself, List.singleton_append, valueGo, if_neg hn, if_neg (by decide),
      if_pos (by simp [hws])]

/-- **Between quotes every written character is read back.** -/
theorem valueGo_quoted {v : Str} :
    valueGo out true false 0 line (v.flatMap escapeChar ++ r) =
      valueGo (out ++ v) true false 0 line r := by
  induction v generalizing out with
  | nil => simp
  | cons c v ih =>
      rw [List.flatMap_cons, List.append_assoc, valueGo_char (Or.inl rfl), ih]
      simp

/-- What is read of an unquoted value, `out` being read already and `pending` spaces due. -/
def readBack (out : Str) (pending : Nat) : Str → Str
  | [] => out
  | c :: v =>
      if isFolded c then readBack out (if out.isEmpty then pending else pending + 1) v
      else readBack (out ++ List.replicate pending ' ' ++ [c]) 0 v

theorem valueGo_unquoted {v : Str} (hv : '#' ∉ v ∧ ';' ∉ v) :
    valueGo out false false pending line (v.flatMap escapeChar ++ '\n' :: r) =
      .ok (readBack out pending v, ⟨r, line + 1⟩) := by
  induction v generalizing out pending with
  | nil =>
      rw [List.flatMap_nil, List.nil_append, valueGo, if_pos rfl, if_neg (by decide)]
      rfl
  | cons c v ih =>
      obtain ⟨⟨hc1, hv1⟩, hc2, hv2⟩ :=
        hv.imp (not_or.mp ∘ mt List.mem_cons.mpr) (not_or.mp ∘ mt List.mem_cons.mpr)
      unfold readBack
      rw [List.flatMap_cons, List.append_assoc]
      by_cases hfold : isFolded c = true
      · rw [valueGo_space hfold, ih ⟨hv1, hv2⟩, if_pos hfold]
      · rw [valueGo_char (Or.inr ⟨eq_false_of_ne_true hfold, Ne.symm hc1, Ne.symm hc2⟩),
          ih ⟨hv1, hv2⟩, if_neg hfold]

end

/-- What a written value is read as. -/
def reread (v : Str) : Str := if needsQuotes v then v else readBack [] 0 v

/-- A value that is written between quotes, or that holds neither a carriage return nor a
form feed. -/
def Survives (v : Str) : Prop := needsQuotes v = true ∨ ('\r' ∉ v ∧ formFeed ∉ v)

instance (v : Str) : Decidable (Survives v) := inferInstanceAs (Decidable (_ ∨ _))

theorem needsQuotes_eq_false {v : Str} : needsQuotes v = false ↔
    v.head? ≠ some ' ' ∧ v.getLast? ≠ some ' ' ∧ '#' ∉ v ∧ ';' ∉ v := by
  unfold needsQuotes
  simp only [Bool.or_eq_false_iff, decide_eq_false_iff_not, List.contains_eq_mem]
  tauto

/-- **What is written after a name is read as its value.** -/
theorem keyValue_quoteValue (v r : Str) (line : Nat) :
    keyValue ⟨str " = " ++ quoteValue v ++ '\n' :: r, line⟩ = .ok (reread v, ⟨r, line + 1⟩) := by
  have hblanks : ∀ t : Str, skipBlanks (str " = " ++ t) = '=' :: ' ' :: t := fun t => rfl
  have hspace : ∀ t : Str, valueGo [] false false 0 line (' ' :: t) =
      valueGo [] false false 0 line t :=
    fun t => by rw [valueGo]; rfl
  unfold keyValue quoteValue reread
  simp only [List.append_assoc]
  rw [hblanks]
  simp only
  unfold value
  simp only
  rw [hspace]
  cases hquotes : needsQuotes v with
  | true =>
      have hopen : ∀ t : Str, valueGo [] false false 0 line ('"' :: t) =
          valueGo [] true false 0 line t :=
        fun t => by rw [valueGo]; rfl
      have hclose : valueGo v true false 0 line ('"' :: '\n' :: r) = .ok (v, ⟨r, line + 1⟩) := by
        rw [valueGo, if_neg (by decide), if_neg (by decide), if_neg (by decide), if_neg (by decide)]
        rw [if_neg (by decide), if_pos rfl, valueGo, if_pos rfl, if_neg (by decide)]
        simp
      rw [if_pos rfl, if_pos rfl, List.append_assoc, List.cons_append, hopen, List.singleton_append,
        valueGo_quoted]
      exact hclose
  | false =>
      obtain ⟨-, -, hhash, hsemi⟩ := needsQuotes_eq_false.mp hquotes
      rw [if_neg (by decide), if_neg (by decide)]
      exact valueGo_unquoted ⟨hhash, hsemi⟩

/-- Text without folded characters but inner spaces is read as it is. -/
theorem readBack_eq {v out : Str} {pending : Nat} (hne : v ≠ [])
    (hlast : v.getLast? ≠ some ' ') (hcr : '\r' ∉ v) (hff : formFeed ∉ v)
    (hfirst : out = [] → pending = 0 ∧ v.head? ≠ some ' ') :
    readBack out pending v = out ++ List.replicate pending ' ' ++ v := by
  induction v generalizing out pending with
  | nil => exact absurd rfl hne
  | cons c v ih =>
      obtain ⟨hc1, hcr'⟩ := not_or.mp (mt List.mem_cons.mpr hcr)
      obtain ⟨hc2, hff'⟩ := not_or.mp (mt List.mem_cons.mpr hff)
      unfold readBack
      by_cases hspace : c = ' '
      · subst hspace
        have hout : out ≠ [] := fun hout => (hfirst hout).2 rfl
        have hv : v ≠ [] := by
          rintro rfl
          exact hlast rfl
        rw [if_pos (by decide), if_neg (by simpa using hout),
          ih hv (by rwa [List.getLast?_cons_of_ne_nil hv] at hlast) hcr' hff' fun h =>
            absurd h hout,
          List.replicate_succ']
        simp
      · have hfold : isFolded c = false := by
          unfold isFolded
          simp only [Bool.or_eq_false_iff, decide_eq_false_iff_not]
          exact ⟨⟨hspace, Ne.symm hc2⟩, Ne.symm hc1⟩
        rw [if_neg (by simp [hfold])]
        by_cases hv : v = []
        · subst hv
          rfl
        · rw [ih hv (by rwa [List.getLast?_cons_of_ne_nil hv] at hlast) hcr' hff' fun h =>
            absurd h (by simp)]
          simp

/-- Nothing folded but spaces is ever read outside quotes. -/
theorem not_mem_readBack {v out : Str} {pending : Nat} {c : Char} (hc : isFolded c = true)
    (hspace : c ≠ ' ') (hout : c ∉ out) : c ∉ readBack out pending v := by
  induction v generalizing out pending with
  | nil => exact hout
  | cons b v ih =>
      unfold readBack
      by_cases hb : isFolded b = true
      · rw [if_pos hb]
        exact ih hout
      · rw [if_neg hb]
        refine ih fun hmem => ?_
        simp only [List.mem_append, List.mem_replicate, List.mem_singleton] at hmem
        rcases hmem with (hmem | ⟨-, hmem⟩) | hmem
        · exact hout hmem
        · exact hspace hmem
        · exact hb (hmem ▸ hc)

/-- **A written value is read back exactly when it survives.** -/
theorem reread_eq_iff {v : Str} : reread v = v ↔ Survives v := by
  unfold reread Survives
  cases hquotes : needsQuotes v with
  | true => simp
  | false =>
      obtain ⟨hhead, hlast, -, -⟩ := needsQuotes_eq_false.mp hquotes
      rw [if_neg (by decide)]
      constructor
      · intro h
        refine Or.inr ⟨?_, ?_⟩ <;> rw [← h]
        · exact not_mem_readBack (by decide) (by decide) List.not_mem_nil
        · exact not_mem_readBack (by decide) (by decide) List.not_mem_nil
      · intro h
        obtain ⟨hcr, hff⟩ := h.resolve_left (by decide)
        by_cases hv : v = []
        · rw [hv]
          rfl
        · rw [readBack_eq hv hlast hcr hff fun _ => ⟨rfl, hhead⟩]
          rfl

/-! ## Keys -/

/-- A section and a subsection as they are read: the section in lower case, a subsection
on one line, and none only beside a section without a dot. -/
structure GoodHeader (hd : Header) : Prop where
  chars : ∀ c ∈ hd.1, isSectionChar c = true ∧ toAsciiLower c = c
  plain : hd.2 = none → hd.1 ≠ [] ∧ '.' ∉ hd.1
  subsection : ∀ sub ∈ hd.2, '\n' ∉ sub

/-- A key as it is read. -/
structure GoodKey (key : Key) : Prop where
  header : GoodHeader (key.section_, key.subsection)
  lower : toAsciiLowercase key.name = key.name
  name : ∃ c r, key.name = c :: r ∧ isAsciiAlphabetic c = true ∧ ∀ x ∈ r, isNameChar x = true

theorem toAsciiLowercase_eq {s : Str} (h : ∀ c ∈ s, toAsciiLower c = c) :
    toAsciiLowercase s = s := by
  unfold toAsciiLowercase
  conv_rhs => rw [← List.map_id s]
  exact List.map_congr_left h

theorem takeWhile_append_stop {p : Char → Bool} {s r : Str} {c : Char} (hs : ∀ x ∈ s, p x = true)
    (hc : p c = false) : (s ++ c :: r).takeWhile p = s ∧ (s ++ c :: r).dropWhile p = c :: r := by
  rw [List.takeWhile_append_of_pos hs, List.dropWhile_append_of_pos hs,
    List.takeWhile_cons_of_neg (by simp [hc]), List.dropWhile_cons_of_neg (by simp [hc]),
      List.append_nil]
  exact ⟨rfl, rfl⟩

/-- A written subsection is read back. -/
theorem subsection_escape {sub r : Str} (h : '\n' ∉ sub) (line : Nat) :
    subsection line (escapeSubsection sub ++ '"' :: r) = .ok (sub, r) := by
  unfold escapeSubsection
  induction sub with
  | nil => rfl
  | cons c sub ih =>
      obtain ⟨hc, hsub⟩ := not_or.mp (mt List.mem_cons.mpr h)
      rw [List.flatMap_cons, List.append_assoc]
      by_cases hescape : c = '"' ∨ c = '\\'
      · rw [if_pos hescape, List.cons_append, List.cons_append, List.nil_append, subsection,
          if_neg (Ne.symm hc), ih hsub]
        rfl
      · obtain ⟨hquote, hback⟩ := not_or.mp hescape
        rw [if_neg hescape, List.cons_append, List.nil_append, subsection, ih hsub]
        · rfl
        · exact fun h => hquote h
        · exact fun h => hc h.symm
        · exact fun h => absurd h hback
        · exact fun _ _ h => absurd h hback

/-- A written header after its opening bracket. -/
def headerTail (hd : Header) : Str :=
  match hd.2 with
  | some sub => hd.1 ++ ' ' :: '"' :: (escapeSubsection sub ++ '"' :: ']' :: ['\n'])
  | none => hd.1 ++ ']' :: ['\n']

theorem headerText_eq (hd : Header) : headerText hd = '[' :: headerTail hd := by
  unfold headerText headerTail
  have hopen : str " \"" = [' ', '"'] := by decide
  have hclose : str "\"]\n" = ['"', ']', '\n'] := by decide
  have hplain : str "]\n" = [']', '\n'] := by decide
  cases hd.2 with
  | none =>
      rw [hplain]
      rfl
  | some sub =>
      rw [hopen, hclose]
      simp

/-- **A written header is read back.** -/
theorem sectionHeader_headerTail {hd : Header} (h : GoodHeader hd) (hne : hd.1 ≠ []) (r : Str)
    (line : Nat) : sectionHeader ⟨headerTail hd ++ r, line⟩ = .ok (hd, ⟨'\n' :: r, line⟩) := by
  obtain ⟨sec, sub⟩ := hd
  have hchars : ∀ c ∈ sec, isSectionChar c = true := fun c hc => (h.chars c hc).1
  have hlower : toAsciiLowercase sec = sec := toAsciiLowercase_eq fun c hc => (h.chars c hc).2
  have hempty : ¬(toAsciiLowercase sec).isEmpty = true := by
    rw [hlower]
    simpa using hne
  unfold sectionHeader headerTail
  cases sub with
  | none =>
      obtain ⟨-, hdot⟩ := h.plain rfl
      obtain ⟨htake, hdrop⟩ := takeWhile_append_stop (r := '\n' :: r) hchars
        (show isSectionChar ']' = false by decide)
      simp only [List.append_assoc, List.cons_append, List.nil_append]
      rw [htake, hdrop, if_neg hempty, hlower, splitOnce_eq_none.mpr hdot]
      rfl
  | some sub =>
      obtain ⟨htake, hdrop⟩ := takeWhile_append_stop
        (r := '"' :: (escapeSubsection sub ++ '"' :: ']' :: '\n' :: r)) hchars
        (show isSectionChar ' ' = false by decide)
      have hblanks : ∀ t : Str, skipBlanks ('"' :: t) = '"' :: t := fun t => rfl
      simp only [List.append_assoc, List.cons_append, List.nil_append]
      rw [htake, hdrop, if_neg hempty]
      show (if ' ' = ' ' ∨ ' ' = '\t' then _ else _) = _
      rw [if_pos (Or.inl rfl), hblanks]
      simp only
      rw [subsection_escape (h.subsection sub rfl), hlower]
      rfl

/-- A header without a section is not read back. -/
theorem sectionHeader_empty {hd : Header} (h : GoodHeader hd) (hempty : hd.1 = []) (r : Str)
    (line : Nat) : ∃ e, sectionHeader ⟨headerTail hd ++ r, line⟩ = .error e := by
  obtain ⟨sec, sub⟩ := hd
  obtain rfl : sec = [] := hempty
  cases sub with
  | none => exact absurd rfl (h.plain rfl).1
  | some sub => exact ⟨_, rfl⟩

/-! ## The loop -/

section
variable {sec : Option Header} {acc : List (Key × Str)} {p p' : Parser} {line : Nat}

theorem parseLoop_end (h : skipWhitespace p.line p.rest = ⟨[], line⟩) :
    parseLoop sec acc p = .ok acc := by
  rw [parseLoop]
  split
  · rfl
  · rename_i heq
    rw [h] at heq
    cases heq

/-- At a bracket a header is parsed, and what follows is of its section. -/
theorem parseLoop_bracket {r : Str} (h : skipWhitespace p.line p.rest = ⟨'[' :: r, line⟩) :
    parseLoop sec acc p = sectionHeader ⟨r, line⟩ >>= fun x => parseLoop (some x.1) acc x.2 := by
  rw [parseLoop]
  split
  · rename_i heq
    rw [h] at heq
    cases heq
  · rename_i heq
    rw [h] at heq
    cases heq
    rw [if_neg (by decide), if_pos rfl]
    split <;> rename_i hheader <;> rw [hheader] <;> rfl

theorem parseLoop_header {r : Str} {hd : Header}
    (h : skipWhitespace p.line p.rest = ⟨'[' :: r, line⟩)
    (hheader : sectionHeader ⟨r, line⟩ = .ok (hd, p')) :
    parseLoop sec acc p = parseLoop (some hd) acc p' := by
  rw [parseLoop_bracket h, hheader]
  rfl

theorem parseLoop_header_error {r : Str} {e : Error}
    (h : skipWhitespace p.line p.rest = ⟨'[' :: r, line⟩)
    (hheader : sectionHeader ⟨r, line⟩ = .error e) : parseLoop sec acc p = .error e := by
  rw [parseLoop_bracket h, hheader]
  rfl

theorem parseLoop_entry {c : Char} {r : Str} {hd : Header} {v : Str}
    (h : skipWhitespace p.line p.rest = ⟨c :: r, line⟩) (hc : isAsciiAlphabetic c = true)
    (hvalue : keyValue ⟨r.dropWhile isNameChar, line⟩ = .ok (v, p')) :
    parseLoop (some hd) acc p =
      parseLoop (some hd) (acc ++ [(Key.new hd.1 hd.2 (c :: r.takeWhile isNameChar), v)]) p' := by
  have hcomment : ¬(c = '#' ∨ c = ';') := by
    rintro (rfl | rfl) <;> exact absurd hc (by decide)
  have hbracket : c ≠ '[' := by
    rintro rfl
    exact absurd hc (by decide)
  rw [parseLoop]
  split
  · rename_i heq
    rw [h] at heq
    cases heq
  · rename_i heq
    rw [h] at heq
    cases heq
    rw [if_neg hcomment, if_neg hbracket, if_pos hc]
    simp only
    split
    · rename_i heq
      rw [hvalue] at heq
      cases heq
    · rename_i heq
      rw [hvalue] at heq
      cases heq
      rfl

end

/-! ## The written text -/

/-- The text written for entries, `current` being the last header written; `first` says
that nothing is written yet. -/
def entriesText (first : Bool) (current : Option Header) : List (Key × Str) → Str
  | [] => []
  | (key, value) :: es =>
      let header := (key.section_, key.subsection)
      (if current ≠ some header then (if first then [] else ['\n']) ++ headerText header else []) ++
        '\t' :: (key.name ++ (str " = " ++ quoteValue value ++
          '\n' :: entriesText false (some header) es))

theorem serializeGo_eq (out : Str) (current : Option Header) (es : List (Key × Str)) :
    serializeGo out current es = out ++ entriesText out.isEmpty current es := by
  induction es generalizing out current with
  | nil =>
      unfold serializeGo entriesText
      rw [List.append_nil]
  | cons e es ih =>
      obtain ⟨key, value⟩ := e
      unfold serializeGo entriesText
      simp only
      rw [ih]
      have hne : ∀ t u : Str, (t ++ u ++ ['\n']).isEmpty = false := fun t u => by simp
      rw [hne]
      by_cases hcur : current ≠ some (key.section_, key.subsection)
      · rw [if_pos hcur, if_pos hcur]
        by_cases hout : out.isEmpty = true
        · simp [hout]
        · simp [hout]
      · rw [if_neg hcur, if_neg hcur]
        simp

/-- What an entry is read back as. -/
def rereadEntry (e : Key × Str) : Key × Str := (e.1, reread e.2)

theorem skipWhitespace_name {key : Key} (h : GoodKey key) (t : Str) (line : Nat) :
    skipWhitespace line (key.name ++ t) = ⟨key.name ++ t, line⟩ := by
  obtain ⟨c, r, hname, hc, -⟩ := h.name
  have hws : isAsciiWhitespace c = false := by
    refine eq_false_of_ne_true fun hws => ?_
    unfold isAsciiWhitespace at hws
    simp only [Bool.or_eq_true, decide_eq_true_eq] at hws
    rcases hws with (((rfl | rfl) | rfl) | rfl) | rfl <;> exact absurd hc (by decide)
  rw [hname, List.cons_append, skipWhitespace, if_neg (by simp [hws])]

/-- **A written entry is read back.** -/
theorem parseLoop_entryText {key : Key} (hkey : GoodKey key) {value rest : Str} {p : Parser}
    {acc : List (Key × Str)} {line : Nat}
    (h : skipWhitespace p.line p.rest =
      ⟨key.name ++ (str " = " ++ quoteValue value ++ '\n' :: rest), line⟩) :
    parseLoop (some (key.section_, key.subsection)) acc p =
      parseLoop (some (key.section_, key.subsection)) (acc ++ [(key, reread value)])
        ⟨rest, line + 1⟩ := by
  obtain ⟨c, r, hname, hc, hr⟩ := hkey.name
  obtain ⟨htake, hdrop⟩ :=
    takeWhile_append_stop (r := '=' :: ' ' :: (quoteValue value ++ '\n' :: rest)) hr
    (show isNameChar ' ' = false by decide)
  have hshape : str " = " ++ quoteValue value ++ '\n' :: rest =
      ' ' :: '=' :: ' ' :: (quoteValue value ++ '\n' :: rest) := by
    rw [show str " = " = [' ', '=', ' '] by decide]
    simp
  have hnew : Key.new key.section_ key.subsection (c :: r) = key := by
    rw [Key.new, toAsciiLowercase_eq fun c hc => (hkey.header.chars c hc).2, ← hname, hkey.lower]
  have hvalue := keyValue_quoteValue value rest line
  rw [hname, List.cons_append] at h
  rw [hshape] at h hvalue
  rw [← hdrop] at hvalue
  rw [parseLoop_entry h hc hvalue, htake, hnew]

/-- A written header leads to what follows it, in its section. -/
theorem parseLoop_headerText {hd : Header} (h : GoodHeader hd) (hne : hd.1 ≠ []) (first : Bool)
    {current : Option Header} {acc : List (Key × Str)} {t : Str} {line : Nat} :
    ∃ line', parseLoop current acc ⟨(if first then [] else ['\n']) ++ headerText hd ++ t, line⟩ =
      parseLoop (some hd) acc ⟨'\n' :: t, line'⟩ := by
  rw [headerText_eq]
  cases first with
  | true =>
      exact ⟨line, parseLoop_header (r := headerTail hd ++ t) rfl
        (sectionHeader_headerTail h hne t line)⟩
  | false =>
      exact ⟨line + 1, parseLoop_header (r := headerTail hd ++ t) rfl
        (sectionHeader_headerTail h hne t (line + 1))⟩

/-- **The text written for entries is read back**, every value as it is reread. -/
theorem parseLoop_entriesText {es : List (Key × Str)} (hgood : ∀ e ∈ es, GoodKey e.1)
    (hne : ∀ e ∈ es, e.1.section_ ≠ []) (first : Bool) (current : Option Header)
    (acc : List (Key × Str)) (line : Nat) :
    parseLoop current acc ⟨entriesText first current es, line⟩ =
      .ok (acc ++ es.map rereadEntry) := by
  induction es generalizing first current acc line with
  | nil =>
      rw [List.map_nil, List.append_nil]
      exact parseLoop_end rfl
  | cons e es ih =>
      obtain ⟨key, value⟩ := e
      have hkey := hgood (key, value) List.mem_cons_self
      have hrest := ih (fun e he => hgood e (List.mem_cons_of_mem _ he))
        (fun e he => hne e (List.mem_cons_of_mem _ he)) false (some (key.section_, key.subsection))
        (acc ++ [(key, reread value)])
      have hshape : acc ++ List.map rereadEntry ((key, value) :: es) =
          acc ++ [(key, reread value)] ++ es.map rereadEntry := by
        rw [List.map_cons, List.append_assoc]
        rfl
      rw [hshape]
      unfold entriesText
      simp only
      by_cases hcur : current ≠ some (key.section_, key.subsection)
      · rw [if_pos hcur]
        obtain ⟨line', hheader⟩ := parseLoop_headerText hkey.header (hne _ List.mem_cons_self) first
        rw [hheader, parseLoop_entryText hkey, hrest]
        exact skipWhitespace_name hkey _ _
      · rw [if_neg hcur, not_not.mp hcur, List.nil_append, parseLoop_entryText hkey, hrest]
        exact skipWhitespace_name hkey _ _

/-- Where an entry has no section, the written text is not read back. -/
theorem parseLoop_entriesText_error {es : List (Key × Str)} (hgood : ∀ e ∈ es, GoodKey e.1)
    (hbad : ∃ e ∈ es, e.1.section_ = []) (first : Bool) (current : Option Header)
    (hcurrent : ∀ hd ∈ current, hd.1 ≠ []) (acc : List (Key × Str)) (line : Nat) :
    ∃ err, parseLoop current acc ⟨entriesText first current es, line⟩ = .error err := by
  induction es generalizing first current acc line with
  | nil =>
      obtain ⟨e, he, -⟩ := hbad
      cases he
  | cons e es ih =>
      obtain ⟨key, value⟩ := e
      have hkey := hgood (key, value) List.mem_cons_self
      unfold entriesText
      simp only
      by_cases hempty : key.section_ = []
      · have hcur : current ≠ some (key.section_, key.subsection) :=
          fun h => hcurrent _ h hempty
        rw [if_pos hcur, headerText_eq]
        cases first with
        | true =>
            obtain ⟨err, herr⟩ := sectionHeader_empty hkey.header hempty _ line
            exact ⟨err, parseLoop_header_error rfl herr⟩
        | false =>
            obtain ⟨err, herr⟩ := sectionHeader_empty hkey.header hempty _ (line + 1)
            exact ⟨err, parseLoop_header_error rfl herr⟩
      · -- the entry itself is read back, so the failure is further on
        have hlater : ∃ e ∈ es, e.1.section_ = [] := by
          obtain ⟨e, he, hsec⟩ := hbad
          rcases List.mem_cons.mp he with rfl | he
          · exact absurd hsec hempty
          · exact ⟨e, he, hsec⟩
        have hrest := ih (fun e he => hgood e (List.mem_cons_of_mem _ he)) hlater false
          (some (key.section_, key.subsection))
          (fun hd hhd => by rw [← Option.some.inj hhd]; exact hempty) (acc ++ [(key, reread value)])
        by_cases hcur : current ≠ some (key.section_, key.subsection)
        · rw [if_pos hcur]
          obtain ⟨line', hheader⟩ := parseLoop_headerText hkey.header hempty first
          rw [hheader, parseLoop_entryText hkey]
          · exact hrest _
          · exact skipWhitespace_name hkey _ _
        · rw [if_neg hcur, not_not.mp hcur, List.nil_append, parseLoop_entryText hkey]
          · exact hrest _
          · exact skipWhitespace_name hkey _ _

/-- The written text does not start with a byte order mark. -/
theorem stripPrefix?_serialize (cfg : Config) :
    (stripPrefix? [byteOrderMark] cfg.serialize).getD cfg.serialize = cfg.serialize := by
  unfold serialize
  rw [serializeGo_eq]
  cases cfg.entries with
  | nil => rfl
  | cons e es =>
      obtain ⟨key, value⟩ := e
      unfold entriesText
      simp only
      rw [if_pos (by simp), headerText_eq]
      rfl

/-- **A written configuration is read back**, every value as it is reread. -/
theorem parse_serialize {cfg : Config} (hgood : ∀ e ∈ cfg.entries, GoodKey e.1)
    (hne : ∀ e ∈ cfg.entries, e.1.section_ ≠ []) :
    parse cfg.serialize = .ok ⟨cfg.entries.map rereadEntry⟩ := by
  rw [parse, stripPrefix?_serialize, serialize, serializeGo_eq, List.nil_append,
    parseLoop_entriesText hgood hne]
  rfl

theorem parse_serialize_error {cfg : Config} (hgood : ∀ e ∈ cfg.entries, GoodKey e.1)
    (hbad : ∃ e ∈ cfg.entries, e.1.section_ = []) : ∃ err, parse cfg.serialize = .error err := by
  obtain ⟨err, herr⟩ := parseLoop_entriesText_error hgood hbad true none nofun [] 1
  refine ⟨err, ?_⟩
  rw [parse, stripPrefix?_serialize, serialize, serializeGo_eq, List.nil_append]
  show Except.map _ (parseLoop none [] ⟨entriesText true none cfg.entries, 1⟩) = _
  rw [herr]
  rfl

/-! ## What is read -/

/-- An upper-case letter is one of twenty-six. -/
theorem exists_upper {c : Char} (h : 'A' ≤ c ∧ c ≤ 'Z') :
    ∃ n : Fin 26, c = Char.ofNat (65 + n) := by
  have hlow : 65 ≤ c.toNat := h.1
  have hhigh : c.toNat ≤ 90 := h.2
  refine ⟨⟨c.toNat - 65, by omega⟩, ?_⟩
  have hsum : 65 + (c.toNat - 65) = c.toNat := by omega
  show c = Char.ofNat (65 + (c.toNat - 65))
  rw [hsum, Char.ofNat_toNat]

/-- Lower case changes an upper-case letter only, so what holds of the small letters and
of the character itself holds of its lower case. -/
theorem toAsciiLower_induction {P : Char → Prop} {c : Char} (hc : ¬('A' ≤ c ∧ c ≤ 'Z') → P c)
    (hupper : ∀ n : Fin 26, P (toAsciiLower (Char.ofNat (65 + n)))) : P (toAsciiLower c) := by
  by_cases h : 'A' ≤ c ∧ c ≤ 'Z'
  · obtain ⟨n, rfl⟩ := exists_upper h
    exact hupper n
  · unfold toAsciiLower
    rw [if_neg h]
    exact hc h

theorem toAsciiLower_toAsciiLower (c : Char) : toAsciiLower (toAsciiLower c) = toAsciiLower c := by
  apply @toAsciiLower_induction fun c => toAsciiLower c = c
  · intro h
    exact if_neg h
  · decide

theorem isSectionChar_toAsciiLower {c : Char} (h : isSectionChar c = true) :
    isSectionChar (toAsciiLower c) = true := by
  apply @toAsciiLower_induction fun c => isSectionChar c = true
  · intro _
    exact h
  · decide

theorem isNameChar_toAsciiLower {c : Char} (h : isNameChar c = true) :
    isNameChar (toAsciiLower c) = true := by
  apply @toAsciiLower_induction fun c => isNameChar c = true
  · intro _
    exact h
  · decide

theorem isAsciiAlphabetic_toAsciiLower {c : Char} (h : isAsciiAlphabetic c = true) :
    isAsciiAlphabetic (toAsciiLower c) = true := by
  apply @toAsciiLower_induction fun c => isAsciiAlphabetic c = true
  · intro _
    exact h
  · decide

/-- The characters of a section in lower case. -/
theorem goodChars_toAsciiLowercase {s : Str} (h : ∀ c ∈ s, isSectionChar c = true) :
    ∀ c ∈ toAsciiLowercase s, isSectionChar c = true ∧ toAsciiLower c = c := by
  intro c hc
  obtain ⟨b, hb, rfl⟩ := List.mem_map.mp hc
  exact ⟨isSectionChar_toAsciiLower (h b hb), toAsciiLower_toAsciiLower b⟩

/-- The key of a good header and of a name, in any case. -/
theorem goodKey_new {hd : Header} (h : GoodHeader hd) {c : Char} {r : Str}
    (hc : isAsciiAlphabetic c = true) (hr : ∀ x ∈ r, isNameChar x = true) :
    GoodKey (Key.new hd.1 hd.2 (c :: r)) := by
  have hsec : toAsciiLowercase hd.1 = hd.1 := toAsciiLowercase_eq fun c hc => (h.chars c hc).2
  unfold Key.new
  refine ⟨?_, ?_, ?_⟩
  · rw [hsec]
    exact h
  · refine toAsciiLowercase_eq fun x hx => ?_
    obtain ⟨y, -, rfl⟩ := List.mem_map.mp hx
    exact toAsciiLower_toAsciiLower y
  · refine ⟨toAsciiLower c, toAsciiLowercase r, rfl, isAsciiAlphabetic_toAsciiLower hc,
      fun x hx => ?_⟩
    obtain ⟨y, hy, rfl⟩ := List.mem_map.mp hx
    exact isNameChar_toAsciiLower (hr y hy)

/-- A subsection that is read is on one line. -/
theorem not_mem_subsection {line : Nat} {s sub r : Str} (h : subsection line s = .ok (sub, r)) :
    '\n' ∉ sub := by
  fun_induction subsection line s generalizing sub r with
  | case1 | case3 | case4 | case5 => cases h
  | case2 r =>
      cases h
      exact List.not_mem_nil
  | case6 c r hc ih =>
      obtain ⟨⟨sub', r'⟩, hr, heq⟩ := except_map_ok.mp h
      cases heq
      exact List.not_mem_cons_of_ne_of_not_mem (Ne.symm hc) (ih hr)
  | case7 c r _ hc _ _ ih =>
      obtain ⟨⟨sub', r'⟩, hr, heq⟩ := except_map_ok.mp h
      cases heq
      exact List.not_mem_cons_of_ne_of_not_mem (fun h => hc h.symm) (ih hr)

/-- **A header that is read is good.** -/
theorem goodHeader_of_sectionHeader {p p' : Parser} {hd : Header}
    (h : sectionHeader p = .ok (hd, p')) :
    GoodHeader hd := by
  have hchars : ∀ c ∈ toAsciiLowercase (p.rest.takeWhile isSectionChar),
      isSectionChar c = true ∧ toAsciiLower c = c :=
    goodChars_toAsciiLowercase fun c hc => List.mem_takeWhile_imp hc
  unfold sectionHeader at h
  simp only at h
  generalize toAsciiLowercase (p.rest.takeWhile isSectionChar) = name at h hchars
  by_cases hempty : name.isEmpty = true
  · rw [if_pos hempty] at h
    cases h
  rw [if_neg hempty] at h
  have hne : name ≠ [] := by simpa using hempty
  split at h
  · split at h
    · -- the legacy form: both parts are parts of the name
      rename_i sec sub hdot
      cases h
      obtain ⟨rfl, -⟩ := splitOnce_eq_some.mp hdot
      refine ⟨fun c hc => hchars c (List.mem_append_left _ hc), nofun, fun s hs hnl => ?_⟩
      cases hs
      have := (hchars '\n' (List.mem_append_right _ (List.mem_cons_of_mem _ hnl))).1
      exact absurd this (by decide)
    · rename_i hdot
      cases h
      exact ⟨hchars, fun _ => ⟨hne, splitOnce_eq_none.mp hdot⟩, nofun⟩
  · split at h
    · split at h
      · split at h
        · cases h
        · rename_i sub r hsub
          cases h
          refine ⟨hchars, nofun, fun s hs => ?_⟩
          cases hs
          exact not_mem_subsection hsub
        · cases h
      · cases h
    · cases h
  · cases h

/-- **Every key that is read is good.** -/
theorem goodKey_of_parseLoop {sec : Option Header} {acc es : List (Key × Str)} {p : Parser}
    (h : parseLoop sec acc p = .ok es) (hsec : ∀ hd ∈ sec, GoodHeader hd)
    (hacc : ∀ e ∈ acc, GoodKey e.1) : ∀ e ∈ es, GoodKey e.1 := by
  fun_induction parseLoop sec acc p with
  | case1 =>
      cases h
      exact hacc
  | case2 sec acc p c r line _ _ ih => exact ih h hsec hacc
  | case3 | case5 | case6 | case8 => cases h
  | case4 sec acc p r line hd p' hheader _ _ ih =>
      refine ih h (fun hd' hd_mem => ?_) hacc
      cases hd_mem
      exact goodHeader_of_sectionHeader hheader
  | case7 acc p c r line _ _ _ hc s sub name v p' hvalue ih =>
      refine ih h hsec fun e he => ?_
      rcases List.mem_append.mp he with he | he
      · exact hacc e he
      · obtain rfl := List.mem_singleton.mp he
        exact goodKey_new (hsec _ rfl) hc fun x hx => List.mem_takeWhile_imp hx

/-- What may be set: a section of letters, digits and dashes, a subsection on one line, a
name that starts with a letter, a value without NUL. -/
structure Settable (section_ : Str) (subsection : Option Str) (name value : Str) : Prop where
  section_ne : section_ ≠ []
  section_ : ∀ c ∈ section_, isNameChar c = true
  subsection : ∀ sub ∈ subsection, '\n' ∉ sub
  name : ∃ c r, name = c :: r ∧ isAsciiAlphabetic c = true ∧ ∀ x ∈ r, isNameChar x = true
  value : Char.ofNat 0 ∉ value

/-- A configuration that is read from a text or empty, and then set. -/
inductive Reachable : Config → Prop
  | new : Reachable new
  | parse {text : Str} {cfg : Config} : Config.parse text = .ok cfg → Reachable cfg
  | set {cfg : Config} {section_ : Str} {subsection : Option Str} {name value : Str} :
      Reachable cfg → Settable section_ subsection name value →
        Reachable (cfg.set section_ subsection name value)

theorem goodKey_of_settable {section_ name value : Str} {subsection : Option Str}
    (h : Settable section_ subsection name value) : GoodKey (Key.new section_ subsection name) := by
  have hchars : ∀ c ∈ section_, isSectionChar c = true := by
    intro c hc
    have hname := h.section_ c hc
    unfold isNameChar at hname
    unfold isSectionChar
    rw [hname, Bool.true_or]
  have hnodot : '.' ∉ toAsciiLowercase section_ := by
    intro hdot
    obtain ⟨c, hc, hlower⟩ := List.mem_map.mp hdot
    have hname := isNameChar_toAsciiLower (h.section_ c hc)
    rw [hlower] at hname
    exact absurd hname (by decide)
  have hheader : GoodHeader (toAsciiLowercase section_, subsection) :=
    ⟨goodChars_toAsciiLowercase hchars,
      fun _ => ⟨fun hnil => h.section_ne (List.map_eq_nil_iff.mp hnil), hnodot⟩, h.subsection⟩
  obtain ⟨c, r, hname, hc, hr⟩ := h.name
  have hkey := goodKey_new hheader hc hr
  unfold Key.new at hkey ⊢
  rw [hname]
  rwa [toAsciiLowercase_eq fun c hc => (hheader.chars c hc).2] at hkey

/-- **Every key of a reachable configuration is good.** -/
theorem goodKey_of_reachable {cfg : Config} (h : Reachable cfg) :
    ∀ e ∈ cfg.entries, GoodKey e.1 := by
  induction h with
  | new => exact fun e he => absurd he List.not_mem_nil
  | parse hparse =>
      obtain ⟨es, hes, rfl⟩ := except_map_ok.mp hparse
      exact goodKey_of_parseLoop hes nofun fun e he => absurd he List.not_mem_nil
  | set _ hset ih =>
      intro e he
      rcases List.mem_append.mp he with he | he
      · exact ih e (List.mem_of_mem_filter he)
      · obtain rfl := List.mem_singleton.mp he
        exact goodKey_of_settable hset

/-- A written configuration is read back as one with the same values of every key. -/
def RoundTrips (cfg : Config) : Prop :=
  ∃ back, parse cfg.serialize = .ok back ∧ ∀ section_ subsection name,
    back.getAll section_ subsection name = cfg.getAll section_ subsection name

/-- Every entry can be written. -/
def Writable (cfg : Config) : Prop := ∀ e ∈ cfg.entries, e.1.section_ ≠ [] ∧ Survives e.2

instance (cfg : Config) : Decidable (Writable cfg) :=
  inferInstanceAs (Decidable (∀ e ∈ cfg.entries, _))

theorem map_snd_filter_reread (es : List (Key × Str)) (key : Key) :
    ((es.map rereadEntry).filter fun e => e.1 = key).map Prod.snd =
      ((es.filter fun e => e.1 = key).map Prod.snd).map reread := by
  rw [List.filter_map, List.map_map, List.map_map]
  rfl

/-- What is read back with the same values could be written. -/
theorem writable_of_roundTrips {cfg : Config} (h : Reachable cfg) (hback : RoundTrips cfg) :
    Writable cfg := by
  obtain ⟨back, hback, hall⟩ := hback
  have hgood := goodKey_of_reachable h
  have hne : ∀ e ∈ cfg.entries, e.1.section_ ≠ [] := by
    intro e he hempty
    obtain ⟨err, herr⟩ := parse_serialize_error hgood ⟨e, he, hempty⟩
    rw [herr] at hback
    cases hback
  rw [parse_serialize hgood hne] at hback
  cases hback
  intro e he
  have hkey : Key.new e.1.section_ e.1.subsection e.1.name = e.1 := by
    rw [Key.new, toAsciiLowercase_eq fun c hc => ((hgood e he).header.chars c hc).2,
      (hgood e he).lower]
  have hsame := hall e.1.section_ e.1.subsection e.1.name
  unfold getAll at hsame
  rw [hkey, map_snd_filter_reread] at hsame
  have hfix := List.map_inj_left.mp (hsame.trans (List.map_id _).symm)
  have hmem : e.2 ∈ (cfg.entries.filter fun x => x.1 = e.1).map Prod.snd :=
    List.mem_map_of_mem (List.mem_filter.mpr ⟨he, decide_eq_true rfl⟩)
  exact ⟨hne e he, reread_eq_iff.mp (hfix e.2 hmem)⟩

/-- What can be written is read back with the same values. -/
theorem roundTrips_of_writable {cfg : Config} (h : Reachable cfg) (hwritable : Writable cfg) :
    RoundTrips cfg := by
  have hsame : cfg.entries.map rereadEntry = cfg.entries := by
    conv_rhs => rw [← List.map_id cfg.entries]
    refine List.map_congr_left fun e he => ?_
    exact Prod.ext rfl (reread_eq_iff.mpr (hwritable e he).2)
  refine ⟨_, parse_serialize (goodKey_of_reachable h) fun e he => (hwritable e he).1, ?_⟩
  intro section_ subsection name
  rw [hsame]

/-- **A configuration can be written and read back exactly when no entry is without a
section and every value is quoted or free of carriage returns and form feeds.** -/
theorem roundTrips_iff_writable {cfg : Config} (h : Reachable cfg) :
    RoundTrips cfg ↔ Writable cfg :=
  ⟨writable_of_roundTrips h, roundTrips_of_writable h⟩

/-- A value with a comment character, quotes and a carriage return is written between
quotes and read back. -/
theorem roundTrips_quoted :
    RoundTrips (new.set (str "core") (some (str "a\"b")) (str "Name") (str " x\r#\ty\"")) :=
  (roundTrips_iff_writable (Reachable.set Reachable.new
    ⟨by decide, List.all_eq_true.mp (by decide), by decide,
      ⟨'N', str "ame", by decide, by decide, List.all_eq_true.mp (by decide)⟩, by decide⟩)).mpr
        (by decide)

/-- A carriage return inside an unquoted value is read back as a space. -/
theorem not_roundTrips_carriageReturn : ¬∀ cfg, Reachable cfg → RoundTrips cfg := by
  intro h
  have hreach : Reachable (new.set (str "a") none (str "b") (str "x\ry")) :=
    Reachable.set Reachable.new
      ⟨by decide, List.all_eq_true.mp (by decide), by decide, ⟨'b', [],
        by decide, by decide, nofun⟩,
        by decide⟩
  exact absurd (writable_of_roundTrips hreach (h _ hreach)) (by decide)

end Config
end Puregit
