import Puregit.Oid

/-! # Reference names, values and packed-refs

A reference is direct, holding an id, or symbolic, naming another reference.  A loose
file holds one; the packed-refs file lists direct ones, each with the target it peels to
where it is an annotated tag.
-/
namespace Puregit

/-- The characters no reference name has. -/
def isForbiddenRefChar (c : Char) : Bool :=
  c.toNat ≤ 0x20 || c.toNat == 0x7f ||
    c == '~' || c == '^' || c == ':' || c == '?' || c == '*' || c == '[' || c == '\\'

/-- Validates a reference name. -/
def isValidRefName (name : Str) : Bool :=
  if name.isEmpty || name == ['@'] then false
  else if startsWith name ['/'] || endsWith name ['/'] || occurs (str "//") name then false
  else if occurs (str "..") name || occurs (str "@\x7b") name then false
  else if endsWith name ['.'] || endsWith name (str ".lock") then false
  else if (name.splitOn '/').any fun c => c.isEmpty || startsWith c ['.'] ||
    endsWith c (str ".lock")
    then false
  else !name.any isForbiddenRefChar

/-- What a valid name is made of. -/
theorem isValidRefName_iff {name : Str} : isValidRefName name = true ↔
    name ≠ [] ∧ name ≠ ['@'] ∧
    (startsWith name ['/'] || endsWith name ['/'] || occurs (str "//") name) = false ∧
    (occurs (str "..") name || occurs (str "@\x7b") name) = false ∧
    (endsWith name ['.'] || endsWith name (str ".lock")) = false ∧
    (∀ c ∈ name.splitOn '/', c ≠ [] ∧ startsWith c ['.'] = false ∧
      endsWith c (str ".lock") = false) ∧
    ∀ c ∈ name, isForbiddenRefChar c = false := by
  have hcomp : ((name.splitOn '/').any fun c => c.isEmpty || startsWith c ['.'] ||
      endsWith c (str ".lock")) = false ↔ ∀ c ∈ name.splitOn '/', c ≠ [] ∧
        startsWith c ['.'] = false ∧ endsWith c (str ".lock") = false := by
    rw [List.any_eq_false]
    refine forall₂_congr fun c _ => ?_
    rw [Bool.not_eq_true, Bool.or_eq_false_iff, Bool.or_eq_false_iff, and_assoc,
      List.isEmpty_eq_false_iff]
  have hempty : (name.isEmpty || name == ['@']) = false ↔ name ≠ [] ∧ name ≠ ['@'] := by
    rw [Bool.or_eq_false_iff, List.isEmpty_eq_false_iff, beq_eq_false_iff_ne]
  rw [← hcomp, ← and_assoc, ← hempty, isValidRefName]
  split
  · rename_i h
    simp [h]
  split
  · rename_i h
    simp [h]
  split
  · rename_i h
    simp [h]
  split
  · rename_i h
    simp [h]
  split
  · rename_i h
    simp [h]
  · rename_i h1 h2 h3 h4 h5
    rw [Bool.not_eq_true] at h1 h2 h3 h4 h5
    simp only [h1, h2, h3, h4, h5, true_and, Bool.not_eq_true', List.any_eq_false,
      Bool.not_eq_true]

/-- The components of a valid name are not empty, not hidden and not locks. -/
theorem component_of_isValidRefName {name c : Str} (h : isValidRefName name = true)
    (hc : c ∈ name.splitOn '/') :
    c ≠ [] ∧ startsWith c ['.'] = false ∧ endsWith c (str ".lock") = false :=
  (isValidRefName_iff.mp h).2.2.2.2.2.1 c hc

theorem not_forbidden_of_isValidRefName {name : Str} {c : Char} (h : isValidRefName name = true)
    (hc : c ∈ name) : isForbiddenRefChar c = false :=
  (isValidRefName_iff.mp h).2.2.2.2.2.2 c hc

/-- The value of a reference. -/
inductive Reference where
  | direct (id : ObjectId)
  | symbolic (target : Str)
  deriving DecidableEq

namespace Reference

/-- Parses the contents of a loose ref file. -/
def parse (algo : HashAlgo) (contents : Bytes) : Except Error Reference :=
  match fromUtf8 contents with
  | none => .error (.reference (str "non-utf8 ref contents"))
  | some text =>
    match stripPrefix? (str "ref:") (trim text) with
    | some target =>
      if isValidRefName (trim target) then .ok (.symbolic (trim target))
      else .error (.reference (str "symbolic ref target is not a valid name: " ++
        debugStr (trim target)))
    | none => (ObjectId.fromHex algo (trim text)).map .direct

/-- The contents of a loose ref file. -/
def toFileContents : Reference → Bytes
  | .direct id => toUtf8 (id.toHex ++ ['\n'])
  | .symbolic target => toUtf8 (str "ref: " ++ target ++ ['\n'])

end Reference

/-! ## packed-refs -/

/-- One entry of a packed-refs file. -/
structure PackedRef where
  name : Str
  id : ObjectId
  peeled : Option ObjectId
  deriving DecidableEq

/-- Serializes the entries of a packed-refs file. -/
def serializePackedRefs (entries : List PackedRef) : Bytes :=
  toUtf8 (str "# pack-refs with: peeled fully-peeled sorted \n" ++ entries.flatMap fun e =>
    e.id.toHex ++ ' ' :: e.name ++ '\n' ::
      (e.peeled.map fun p => '^' :: p.toHex ++ ['\n']).getD [])

/-- The entries read so far, and whether the last ref line was skipped. -/
structure PackedRefsState where
  out : List PackedRef
  lastSkipped : Bool

/-- Reads one line; a ref of no valid name is skipped with its peel line. -/
def packedRefsLine (algo : HashAlgo) (s : PackedRefsState) (line : Str) :
    Except Error PackedRefsState :=
  if line.isEmpty || startsWith line ['#'] then .ok s
  else match stripPrefix? ['^'] line with
    | some peel => do
      let id ← ObjectId.fromHex algo (trim peel)
      if s.lastSkipped then .ok s
      else match s.out.getLast? with
        | none => .error (.reference (str "packed-refs: peel line without ref"))
        | some last => .ok { s with out := s.out.dropLast ++ [{ last with peeled := some id }] }
    | none =>
      match splitOnce ' ' line with
      | none => .error (.reference (str "packed-refs: malformed line"))
      | some (oid, name) =>
        if !isValidRefName (trim name) then .ok { s with lastSkipped := true }
        else (ObjectId.fromHex algo (trim oid)).map fun id =>
          ⟨s.out ++ [⟨trim name, id, none⟩], false⟩

/-- Parses a packed-refs file. -/
def parsePackedRefs (algo : HashAlgo) (contents : Bytes) : Except Error (List PackedRef) :=
  match fromUtf8 contents with
  | none => .error (.reference (str "non-utf8 packed-refs"))
  | some text => ((lines text).foldlM (packedRefsLine algo) ⟨[], false⟩).map (·.out)

/-- What every entry read from a packed-refs file satisfies. -/
structure PackedRef.WellFormed (algo : HashAlgo) (e : PackedRef) : Prop where
  valid : isValidRefName e.name = true
  trimmed : trim e.name = e.name
  algo_eq : e.id.algo = algo
  peeled_algo : ∀ p ∈ e.peeled, p.algo = algo

theorem packedRefsLine_wellFormed {algo : HashAlgo} {s s' : PackedRefsState} {line : Str}
    (h : packedRefsLine algo s line = .ok s') (hs : ∀ e ∈ s.out, e.WellFormed algo) :
    ∀ e ∈ s'.out, e.WellFormed algo := by
  rw [packedRefsLine] at h
  split at h
  · cases h
    exact hs
  split at h
  · obtain ⟨id, hid, h⟩ := except_bind_ok.mp h
    split at h
    · cases h
      exact hs
    split at h
    · cases h
    · rename_i last hlast
      cases h
      intro e he
      rcases List.mem_append.mp he with he | he
      · exact hs e (List.dropLast_subset _ he)
      · rw [List.mem_singleton] at he
        have hwf := hs last (List.mem_of_getLast? hlast)
        subst he
        refine ⟨hwf.valid, hwf.trimmed, hwf.algo_eq, fun p hp => ?_⟩
        cases hp
        exact ObjectId.fromHex_algo hid
  · split at h
    · cases h
    · rename_i oid name _
      split at h
      · cases h
        exact hs
      · rename_i hvalid
        obtain ⟨id, hid, rfl⟩ := except_map_ok.mp h
        intro e he
        rcases List.mem_append.mp he with he | he
        · exact hs e he
        · rw [List.mem_singleton] at he
          subst he
          exact ⟨by simpa using hvalid, trim_trim name, ObjectId.fromHex_algo hid, by simp⟩

/-- **Every entry a packed-refs file yields is well formed.** -/
theorem parsePackedRefs_wellFormed {algo : HashAlgo} {contents : Bytes} {entries : List PackedRef}
    (h : parsePackedRefs algo contents = .ok entries) : ∀ e ∈ entries, e.WellFormed algo := by
  rw [parsePackedRefs] at h
  split at h
  · cases h
  · obtain ⟨s, hs, rfl⟩ := except_map_ok.mp h
    exact except_foldlM_inv (P := fun s => ∀ e ∈ s.out, e.WellFormed algo)
      (fun _ hout _ _ _ hline => packedRefsLine_wellFormed hline hout) (by simp) hs

/-! ## Reading packed-refs back -/

/-- The lines an entry is written as. -/
def PackedRef.lines (e : PackedRef) : List Str :=
  (e.id.toHex ++ ' ' :: e.name) :: (e.peeled.map fun p => '^' :: p.toHex).toList

/-- The line every packed-refs file begins with. -/
def packedRefsHeader : Str := str "# pack-refs with: peeled fully-peeled sorted "

theorem serializePackedRefs_eq (entries : List PackedRef) : serializePackedRefs entries =
    toUtf8 ((packedRefsHeader :: entries.flatMap PackedRef.lines).flatMap (· ++ ['\n'])) := by
  have hheader : str "# pack-refs with: peeled fully-peeled sorted \n" =
      packedRefsHeader ++ ['\n'] :=
    rfl
  rw [serializePackedRefs, List.flatMap_cons, hheader, List.flatMap_assoc]
  congr 2
  refine List.flatMap_congr fun e _ => ?_
  rw [PackedRef.lines]
  cases e.peeled with
  | none => simp
  | some p => simp

theorem not_whitespace_of_mem_toHex {o : ObjectId} {c : Char} (h : c ∈ o.toHex) :
    isWhitespace c = false ∧ c ≠ ' ' ∧ c ≠ '\n' ∧ c ≠ Char.ofNat 13 ∧ c ≠ '#' ∧ c ≠ '^' := by
  have hrange := ObjectId.mem_toHex h
  refine ⟨ObjectId.isWhitespace_of_mem_toHex h, ?_, ?_, ?_, ?_, ?_⟩
  all_goals
    rintro rfl
    revert hrange
    decide

theorem toHex_eq_cons (o : ObjectId) : ∃ c r, o.toHex = c :: r ∧ c ≠ '#' ∧ c ≠ '^' := by
  have hlen : (toUtf8 o.toHex).length = o.algo.hexLen := by
    rw [ObjectId.toHex, ObjectId.length_toUtf8_hex, o.length_eq]
    rfl
  cases h : o.toHex with
  | nil =>
      rw [h] at hlen
      cases halgo : o.algo <;> rw [halgo] at hlen <;> cases hlen
  | cons c r =>
      have hc := not_whitespace_of_mem_toHex (o := o) (c := c) (by rw [h]; simp)
      exact ⟨c, r, rfl, hc.2.2.2.2.1, hc.2.2.2.2.2⟩

/-- An id on a line of its own is trimmed to the id. -/
theorem ObjectId.trim_toHex_line (id : ObjectId) : trim (id.toHex ++ ['\n']) = id.toHex := by
  obtain ⟨c, r, hcr, -, -⟩ := toHex_eq_cons id
  have hc := (not_whitespace_of_mem_toHex (o := id) (c := c) (by rw [hcr]; simp)).1
  have hdrop : ∀ t : Str, (id.toHex ++ t).dropWhile isWhitespace = id.toHex ++ t := by
    intro t
    rw [hcr, List.cons_append, List.dropWhile_cons_of_neg (by simp [hc])]
  have hend := ObjectId.trim_toHex id
  rw [trim, ← List.append_nil id.toHex, hdrop, List.append_nil] at hend
  rw [trim, hdrop, List.reverse_append, List.reverse_singleton, List.singleton_append,
    List.dropWhile_cons_of_pos (by decide), hend]

/-- The loose file of a direct ref holds its id. -/
theorem Reference.parse_direct_eq (algo : HashAlgo) (id : ObjectId) :
    Reference.parse algo (Reference.direct id).toFileContents =
      (ObjectId.fromHex algo id.toHex).map .direct := by
  obtain ⟨c, r, hcr, -, -⟩ := toHex_eq_cons id
  have hstrip : stripPrefix? (str "ref:") id.toHex = none := by
    rw [hcr]
    have hc := ObjectId.mem_toHex (o := id) (c := c) (by rw [hcr]; simp)
    have hr : 'r' ≠ c := by
      rintro rfl
      revert hc
      decide
    simp [str, stripPrefix?, hr]
  simp only [Reference.parse, Reference.toFileContents, fromUtf8_toUtf8,
    ObjectId.trim_toHex_line, hstrip]

/-- **The loose file of a direct ref is read back.** -/
theorem Reference.parse_direct (id : ObjectId) :
    Reference.parse id.algo (Reference.direct id).toFileContents = .ok (.direct id) := by
  rw [Reference.parse_direct_eq, ObjectId.fromHex_toHex]
  rfl

/-- A file that holds an id is no packed-refs file. -/
theorem parsePackedRefs_direct (algo : HashAlgo) (id : ObjectId) :
    parsePackedRefs algo (Reference.direct id).toFileContents =
      .error (.reference (str "packed-refs: malformed line")) := by
  obtain ⟨c, r, hcr, hhash, hcaret⟩ := toHex_eq_cons id
  have hline : lines (id.toHex ++ ['\n']) = [id.toHex] := by
    have hl := @lines_flatMap [id.toHex]
      (by simpa using fun h => (not_whitespace_of_mem_toHex h).2.2.1 rfl)
      (by simpa using fun h => (not_whitespace_of_mem_toHex (List.mem_of_getLast? h)).2.2.2.1 rfl)
    rwa [List.flatMap_singleton] at hl
  have hsplit : splitOnce ' ' id.toHex = none := by
    cases hs : splitOnce ' ' id.toHex with
    | none => rfl
    | some b =>
        have hmem : ' ' ∈ id.toHex := by
          rw [(splitOnce_eq_some.mp hs).1]
          simp
        exact absurd rfl (not_whitespace_of_mem_toHex hmem).2.1
  have hstrip : stripPrefix? ['^'] id.toHex = none := by
    rw [hcr, stripPrefix?, if_neg (Ne.symm hcaret)]
  have hcomment : (List.isEmpty id.toHex || startsWith id.toHex ['#']) = false := by
    rw [hcr]
    simp [startsWith, List.isPrefixOf, Ne.symm hhash]
  rw [parsePackedRefs, Reference.toFileContents, fromUtf8_toUtf8]
  simp only [hline, List.foldlM_cons, List.foldlM_nil]
  rw [packedRefsLine, hcomment, if_neg (by simp), hstrip]
  simp only [hsplit]
  rfl

theorem packedRefsLine_ref {e : PackedRef} {algo : HashAlgo} (he : e.WellFormed algo)
    (s : PackedRefsState) : packedRefsLine algo s (e.id.toHex ++ ' ' :: e.name) =
      .ok ⟨s.out ++ [⟨e.name, e.id, none⟩], false⟩ := by
  obtain ⟨c, r, hcr, hhash, hcaret⟩ := toHex_eq_cons e.id
  have hsplit : splitOnce ' ' (e.id.toHex ++ ' ' :: e.name) = some (e.id.toHex, e.name) :=
    splitOnce_eq_some.mpr ⟨rfl, fun h => (not_whitespace_of_mem_toHex h).2.1 rfl⟩
  have hstrip : stripPrefix? ['^'] (e.id.toHex ++ ' ' :: e.name) = none := by
    rw [hcr, List.cons_append, stripPrefix?, if_neg (Ne.symm hcaret)]
  have hid : ObjectId.fromHex algo (trim e.id.toHex) = .ok e.id := by
    rw [ObjectId.trim_toHex, ← he.algo_eq]
    exact ObjectId.fromHex_toHex e.id
  have hcomment : (List.isEmpty (e.id.toHex ++ ' ' :: e.name) ||
      startsWith (e.id.toHex ++ ' ' :: e.name) ['#']) = false := by
    rw [hcr]
    simp [startsWith, List.isPrefixOf, Ne.symm hhash]
  rw [packedRefsLine, hcomment, if_neg (by simp), hstrip]
  simp only [hsplit]
  rw [he.trimmed, he.valid, if_neg (by simp), hid]
  rfl

theorem packedRefsLine_peel {algo : HashAlgo} {p : ObjectId} (hp : p.algo = algo)
    (out : List PackedRef) (name : Str) (id : ObjectId) :
    packedRefsLine algo ⟨out ++ [⟨name, id, none⟩], false⟩ ('^' :: p.toHex) =
      .ok ⟨out ++ [⟨name, id, some p⟩], false⟩ := by
  have hid : ObjectId.fromHex algo (trim p.toHex) = .ok p := by
    rw [ObjectId.trim_toHex, ← hp]
    exact ObjectId.fromHex_toHex p
  rw [packedRefsLine, if_neg (by simp [startsWith])]
  simp only [stripPrefix?, if_true, hid, bind, Except.bind]
  simp

/-- **Writing entries that were read, and reading them again, gives them back.** -/
theorem parsePackedRefs_serialize {algo : HashAlgo} {entries : List PackedRef}
    (h : ∀ e ∈ entries, e.WellFormed algo) :
    parsePackedRefs algo (serializePackedRefs entries) = .ok entries := by
  have hname : ∀ e ∈ entries, ∀ c ∈ e.name, c ≠ '\n' ∧ c ≠ Char.ofNat 13 := by
    intro e he c hc
    have hf := not_forbidden_of_isValidRefName (h e he).valid hc
    constructor
    all_goals
      rintro rfl
      revert hf
      decide
  have hline : ∀ l ∈ packedRefsHeader :: entries.flatMap PackedRef.lines, ∀ c ∈ l,
      c ≠ '\n' ∧ c ≠ Char.ofNat 13 := by
    intro l hl c hc
    rcases List.mem_cons.mp hl with rfl | hl
    · have hall : packedRefsHeader.all (fun c => decide (c ≠ '\n' ∧ c ≠ Char.ofNat 13)) = true := by
        decide
      exact of_decide_eq_true (List.all_eq_true.mp hall c hc)
    · obtain ⟨e, he, hl⟩ := List.mem_flatMap.mp hl
      have hhex : ∀ o : ObjectId, c ∈ o.toHex → c ≠ '\n' ∧ c ≠ Char.ofNat 13 := fun o ho =>
        have hw := not_whitespace_of_mem_toHex ho
        ⟨hw.2.2.1, hw.2.2.2.1⟩
      rcases List.mem_cons.mp hl with rfl | hl
      · rcases List.mem_append.mp hc with hc | hc
        · exact hhex _ hc
        rcases List.mem_cons.mp hc with rfl | hc
        · decide
        · exact hname e he c hc
      · obtain ⟨p, -, rfl⟩ := Option.mem_map.mp (Option.mem_toList.mp hl)
        rcases List.mem_cons.mp hc with rfl | hc
        · decide
        · exact hhex _ hc
  have hfold : ∀ (es out : List PackedRef), (∀ e ∈ es, e.WellFormed algo) →
      (es.flatMap PackedRef.lines).foldlM (packedRefsLine algo) ⟨out, false⟩ =
        .ok ⟨out ++ es, false⟩ := by
    intro es
    induction es with
    | nil =>
        intro out _
        rw [List.append_nil]
        rfl
    | cons e es ih =>
        intro out hes
        have he := hes e List.mem_cons_self
        have hrest : ∀ e' ∈ es, e'.WellFormed algo :=
          fun e' h' => hes e' (List.mem_cons_of_mem e h')
        rw [List.flatMap_cons, List.foldlM_append, PackedRef.lines, List.foldlM_cons,
          packedRefsLine_ref he]
        obtain ⟨name, id, peeled⟩ := e
        cases peeled with
        | none =>
            have hstep := ih (out ++ [⟨name, id, none⟩]) hrest
            rw [List.append_assoc] at hstep
            exact hstep
        | some p =>
            have hp := packedRefsLine_peel (he.peeled_algo p rfl) out name id
            have hstep := ih (out ++ [⟨name, id, some p⟩]) hrest
            rw [List.append_assoc] at hstep
            simp only [Option.map_some, Option.toList_some, List.foldlM_cons, List.foldlM_nil, bind,
              Except.bind, hp, pure, Except.pure]
            exact hstep
  rw [parsePackedRefs, serializePackedRefs_eq, fromUtf8_toUtf8]
  simp only
  rw [lines_flatMap (fun l hl hc => (hline l hl _ hc).1 rfl)
    (fun l hl hc => (hline l hl _ (List.mem_of_getLast? hc)).2 rfl), List.foldlM_cons]
  have hheader : packedRefsLine algo ⟨[], false⟩ packedRefsHeader = .ok ⟨[], false⟩ := by
    rw [packedRefsLine, if_pos (by decide)]
  rw [hheader]
  simp only [bind, Except.bind]
  rw [hfold entries [] h]
  rfl

end Puregit
