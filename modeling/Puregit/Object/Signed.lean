import Puregit.Object.RoundTrip

/-! # Signed commits

A signature is a header of a commit, `gpgsig`, over several lines, of which the further ones start
with a space.  What was signed is the commit without that header.  `signature` takes the header out
and the spaces with it; `sign` puts an armored block in.  `sign_spec` says that the one undoes the
other, for any block of lines, blank ones among them.
-/
namespace Puregit
namespace Commit

/-- The lines of some bytes, each with its newline; the last may be without one. -/
def physicalLines : Bytes → List Bytes
  | [] => []
  | b :: rest =>
    if b = 10 then [b] :: physicalLines rest
    else
      match physicalLines rest with
      | [] => [[b]]
      | line :: lines => (b :: line) :: lines

/-- The keyword of a signature. -/
def gpgsig : Bytes := bytes "gpgsig "

/-- Header lines without the signatures, and the last signature, its further lines without the space
they start with. -/
def splitLines : List Bytes → Bytes × Option Bytes
  | [] => ([], none)
  | line :: lines =>
    match stripPrefix? gpgsig line with
    | none => (line ++ (splitLines lines).1, (splitLines lines).2)
    | some first =>
      let further := lines.takeWhile fun l => l.head? == some 32
      let rest := splitLines (lines.drop further.length)
      (rest.1, rest.2.or (some (first ++ further.flatMap (List.drop 1))))
termination_by lines => lines.length
decreasing_by
  all_goals simp only [List.length_drop, List.length_cons]
  all_goals omega

/-- The extra headers without the signature, and the signature, if there is one. -/
def splitSignature (c : Commit) : Option (Bytes × Bytes) :=
  let s := splitLines (physicalLines c.extraHeaders)
  s.2.map fun signature => (s.1, signature)

/-- The signature of a commit. -/
def signature (c : Commit) : Option Bytes := c.splitSignature.map Prod.snd

/-- What was signed: the commit without its signature. -/
def signedPayload (c : Commit) : Bytes :=
  serialize { c with extraHeaders := (c.splitSignature.map Prod.fst).getD c.extraHeaders }

/-- Lines as the header of a signature. -/
def signatureHeader : List Bytes → Bytes
  | [] => []
  | first :: further => gpgsig ++ first ++ [10] ++ further.flatMap fun line => 32 :: line ++ [10]

/-- The commit with a signature of these lines. -/
def sign (c : Commit) (armor : List Bytes) : Commit :=
  { c with extraHeaders := c.extraHeaders ++ signatureHeader armor }

/-! ## Taking a signature out -/

theorem physicalLines_line {line : Bytes} (h : 10 ∉ line) (rest : Bytes) :
    physicalLines (line ++ 10 :: rest) = (line ++ [10]) :: physicalLines rest := by
  induction line with
  | nil => rw [List.nil_append, physicalLines, if_pos rfl, List.nil_append]
  | cons b line ih =>
    obtain ⟨hb, hline⟩ : b ≠ 10 ∧ 10 ∉ line := by simpa [eq_comm] using h
    rw [List.cons_append, physicalLines, if_neg hb, ih hline]
    rfl

/-- Lines that were ended by newlines are read back. -/
theorem physicalLines_flatMap {ls : List Bytes} (h : ∀ l ∈ ls, 10 ∉ l) :
    physicalLines (ls.flatMap (· ++ [10])) = ls.map (· ++ [10]) := by
  induction ls with
  | nil => rfl
  | cons l ls ih =>
    obtain ⟨hl, hls⟩ := List.forall_mem_cons.mp h
    rw [List.flatMap_cons, List.append_assoc, List.singleton_append, physicalLines_line hl, ih hls,
      List.map_cons]

/-- Lines that are no signature stay. -/
theorem splitLines_append {plain : List Bytes} (h : ∀ l ∈ plain, ¬gpgsig <+: l)
    (lines : List Bytes) :
    splitLines (plain ++ lines) = (plain.flatten ++ (splitLines lines).1,
      (splitLines lines).2) := by
  induction plain with
  | nil => rfl
  | cons l plain ih =>
    obtain ⟨hl, hplain⟩ := List.forall_mem_cons.mp h
    have hstrip : stripPrefix? gpgsig l = none := by
      rw [Option.eq_none_iff_forall_ne_some]
      exact fun r hr => hl ⟨r, (stripPrefix?_eq_some.mp hr).symm⟩
    rw [List.cons_append, splitLines, hstrip]
    simp only
    rw [ih hplain, List.flatten_cons, List.append_assoc]

/-- A signature at the end is taken out. -/
theorem splitLines_signature (first : Bytes) {further : List Bytes} :
    splitLines ((gpgsig ++ first ++ [10]) :: further.map fun line => 32 :: line ++ [10]) =
      ([], some (first ++ [10] ++ further.flatMap fun line => line ++ [10])) := by
  have hstrip : stripPrefix? gpgsig (gpgsig ++ first ++ [10]) = some (first ++ [10]) :=
    stripPrefix?_eq_some.mpr (List.append_assoc _ _ _)
  have hall : (further.map fun line => 32 :: line ++ [10]).takeWhile (fun l => l.head? == some 32) =
      further.map fun line => 32 :: line ++ [10] := by
    refine List.takeWhile_eq_self_iff.mpr ?_
    rw [List.forall_mem_map]
    exact fun _ _ => rfl
  rw [splitLines, hstrip]
  simp only [hall, List.drop_length]
  rw [splitLines, List.flatMap_map]
  rfl

/-- Without a signature the lines are of other keywords. -/
theorem not_gpgsig_of_unsigned {lines : List Bytes} (h : (splitLines lines).2 = none) :
    ∀ l ∈ lines, ¬gpgsig <+: l := by
  induction lines with
  | nil => exact nofun
  | cons l lines ih =>
    rw [splitLines] at h
    split at h
    · next hstrip =>
      refine List.forall_mem_cons.mpr ⟨?_, ih h⟩
      rintro ⟨r, hr⟩
      rw [stripPrefix?_eq_some.mpr hr.symm] at hstrip
      cases hstrip
    · next first hstrip =>
      simp only at h
      cases hrest :
        (splitLines (lines.drop (lines.takeWhile fun l => l.head? == some 32).length)).2 with
      | none =>
        rw [hrest] at h
        cases h
      | some s =>
        rw [hrest] at h
        cases h

/-- A signature of lines without newlines is as well formed as the headers before it. -/
theorem WellFormed.sign {algo : HashAlgo} {c : Commit} (h : c.WellFormed algo) {armor : List Bytes}
    (harmor : ∀ l ∈ armor, 10 ∉ l) : (c.sign armor).WellFormed algo := by
  obtain ⟨ls, hls, hlines, hfirst, hunknown⟩ := h.extra
  cases armor with
  | nil => exact { h with extra := ⟨ls, by rw [Commit.sign, signatureHeader, List.append_nil,
    hls], hlines, hfirst, hunknown⟩ }
  | cons first further =>
    obtain ⟨hfirstLine, hfurther⟩ := List.forall_mem_cons.mp harmor
    have hkeyword : ∀ l, (gpgsig ++ l).head? ≠ some 32 ∧
        ∀ keyword ∈ wellKnown, ¬keyword <+: gpgsig ++ l := by
      intro l
      refine ⟨nofun, fun keyword hkeyword hprefix => ?_⟩
      have hhead : ∀ keyword ∈ wellKnown, keyword ≠ [] ∧ keyword.head? ≠ some 103 := by decide
      obtain ⟨r, hr⟩ := hprefix
      obtain ⟨hne, hother⟩ := hhead keyword hkeyword
      have hcons : (keyword ++ r).head? = some 103 := by
        rw [hr]
        rfl
      rw [List.head?_append_of_ne_nil _ hne] at hcons
      exact hother hcons
    refine { h with extra := ⟨ls ++ (gpgsig ++ first) :: further.map (32 :: ·), ?_, ?_, ?_, ?_⟩ }
    · rw [Commit.sign, signatureHeader, hls]
      simp [List.flatMap_append, List.flatMap_map]
    · rintro l hl
      rcases List.mem_append.mp hl with hl | hl
      · exact hlines l hl
      rcases List.mem_cons.mp hl with rfl | hl
      · exact ⟨List.cons_ne_nil 103 _, by
          rw [List.mem_append]
          exact not_or.mpr ⟨by decide, hfirstLine⟩⟩
      · obtain ⟨line, hline, rfl⟩ := List.mem_map.mp hl
        exact ⟨List.cons_ne_nil _ _, by simpa using hfurther line hline⟩
    · intro l hl
      cases ls with
      | nil =>
        cases hl
        exact (hkeyword first).1
      | cons l' ls => exact hfirst l hl
    · intro l hl hspace
      rcases List.mem_append.mp hl with hl | hl
      · exact hunknown l hl hspace
      rcases List.mem_cons.mp hl with rfl | hl
      · exact (hkeyword first).2
      · obtain ⟨line, hline, rfl⟩ := List.mem_map.mp hl
        exact absurd rfl hspace

/-- **Signing is undone by taking the signature out**: a signed commit has the block it was signed
with, what was signed is the unsigned commit, and it is read back from its payload. -/
theorem sign_spec {algo : HashAlgo} {c : Commit} (h : c.WellFormed algo)
    (hunsigned : c.signature = none) {armor : List Bytes} (harmor : ∀ l ∈ armor, 10 ∉ l)
    (hne : armor ≠ []) :
    (c.sign armor).signature = some (armor.flatMap (· ++ [10])) ∧
      (c.sign armor).signedPayload = c.serialize ∧
      parse algo (c.sign armor).serialize = .ok (c.sign armor) := by
  obtain ⟨ls, hls, hlines, -, -⟩ := h.extra
  obtain ⟨first, further, rfl⟩ := List.exists_cons_of_ne_nil hne
  have hnone : (splitLines (physicalLines c.extraHeaders)).2 = none := by
    rw [Commit.signature, splitSignature] at hunsigned
    simpa using hunsigned
  have hold : physicalLines c.extraHeaders = ls.map (· ++ [10]) := by
    rw [hls, physicalLines_flatMap fun l hl => (hlines l hl).2]
  have hplain := not_gpgsig_of_unsigned hnone
  rw [hold] at hplain
  have hheader : (c.sign (first :: further)).extraHeaders =
      (ls ++ (gpgsig ++ first) :: further.map (32 :: ·)).flatMap (· ++ [10]) := by
    rw [Commit.sign, signatureHeader, hls]
    simp [List.flatMap_append, List.flatMap_map]
  have hnewlines : ∀ l ∈ ls ++ (gpgsig ++ first) :: further.map (32 :: ·), 10 ∉ l := by
    obtain ⟨hfirst, hfurther⟩ := List.forall_mem_cons.mp harmor
    intro l hl
    rcases List.mem_append.mp hl with hl | hl
    · exact (hlines l hl).2
    rcases List.mem_cons.mp hl with rfl | hl
    · rw [List.mem_append]
      exact not_or.mpr ⟨by decide, hfirst⟩
    · obtain ⟨line, hline, rfl⟩ := List.mem_map.mp hl
      simpa using hfurther line hline
  have hsplit : splitLines (physicalLines (c.sign (first :: further)).extraHeaders) =
      (c.extraHeaders, some ((first :: further).flatMap (· ++ [10]))) := by
    rw [hheader, physicalLines_flatMap hnewlines, List.map_append, List.map_cons, List.map_map,
      splitLines_append hplain]
    have hsignature := @splitLines_signature first further
    have hfun : ((fun x : Bytes => x ++ [10]) ∘ fun x => 32 :: x) = fun line =>
      32 :: line ++ [10] := rfl
    rw [hfun, hsignature, List.append_nil, hls, List.flatMap_cons]
    rfl
  refine ⟨?_, ?_, parse_serialize_canonical (h.sign harmor).canonical⟩
  · rw [Commit.signature, splitSignature, hsplit]
    rfl
  · rw [signedPayload, splitSignature, hsplit]
    rfl

end Commit
end Puregit
