import Puregit.Object.RoundTrip
import Puregit.Protocol.Stream
import Puregit.Server.Discovery

/-! # Asking a server for its refs

Over protocol version 2 a client asks for the refs by a command of its own.  It asks for peeled ids,
for the targets of symbolic refs and for a HEAD that is unborn, and reads the answer line by line.

A line of the answer is an id or the word `unborn`, a name and attributes, between spaces.
`parseLsRefsResponse_iff` says which answers are read as what they say: all whose lines are text and
have an id.  One line of an unborn HEAD, as a server sends it for a new repository, fails the
answer.
-/
namespace Puregit.Client
open PktLine Server

/-- Text that is cut at its first space is cut so in UTF-8. -/
theorem split_toUtf8 {s : Str} {a b : Bytes} (h : toUtf8 s = a ++ 32 :: b) (ha : 32 ∉ a) :
    ∃ word rest, s = word ++ ' ' :: rest ∧ ' ' ∉ word ∧ toUtf8 word = a ∧ toUtf8 rest = b := by
  have hspace : ' ' ∈ s := (ascii_mem_toUtf8 (by decide)).mp
    (h ▸ List.mem_append_right _ List.mem_cons_self)
  obtain ⟨word, rest, rfl, hword⟩ := List.eq_append_cons_of_mem hspace
  have hsplit : splitOnce 32 (a ++ 32 :: b) = some (toUtf8 word, toUtf8 rest) :=
    splitOnce_eq_some.mpr ⟨by rw [← h, toUtf8_append, toUtf8_cons]; rfl,
      fun hmem => hword ((ascii_mem_toUtf8 (by decide)).mp hmem)⟩
  have hsplit' : splitOnce 32 (a ++ 32 :: b) = some (a, b) := splitOnce_eq_some.mpr ⟨rfl, ha⟩
  cases hsplit.symm.trans hsplit'
  exact ⟨word, rest, rfl, hword, rfl, rfl⟩

/-! ## Answers -/

/-- A line of an answer.  An unborn ref has no id; the newline at the end may be left out. -/
structure LsRefsLine (algo : HashAlgo) where
  oid : Option ObjectId
  name : Bytes
  attributes : List Bytes
  newline : Bool
  oid_algo : ∀ id ∈ oid, id.algo = algo
  separate : ∀ part ∈ name :: attributes, 32 ∉ part ∧ 10 ∉ part

namespace LsRefsLine

variable {algo : HashAlgo} (l : LsRefsLine algo)

/-- The first word. -/
def head : Str :=
  match l.oid with
  | some id => id.toHex
  | none => str "unborn"

/-- What is behind the first word. -/
def behind : Bytes := l.name ++ l.attributes.flatMap (32 :: ·)

/-- The line, without its newline. -/
def text : Bytes := toUtf8 l.head ++ 32 :: l.behind

/-- The line as it is sent. -/
def packet : Packet := .data (if l.newline then l.text ++ [10] else l.text)

/-- The name and the id, of a ref that is not unborn. -/
def ref : Option (Bytes × ObjectId) := l.oid.map (l.name, ·)

/-- A line of a ref, in UTF-8. -/
def Readable : Prop := l.oid ≠ none ∧ (fromUtf8 l.text).isSome

variable {l}

theorem space_not_mem_head : ' ' ∉ l.head := by
  unfold head
  split
  · exact space_not_mem_toHex _
  · decide

theorem newline_not_mem_text : 10 ∉ l.text := by
  have hhead : (10 : UInt8) ∉ toUtf8 l.head := by
    unfold head
    split
    · exact fun h => (mem_toUtf8_toHex h).1 rfl
    · decide
  intro h
  rcases List.mem_append.mp h with h | h
  · exact hhead h
  rcases List.mem_cons.mp h with h | h
  · cases h
  rcases List.mem_append.mp h with h | h
  · exact (l.separate _ List.mem_cons_self).2 h
  obtain ⟨a, ha, h⟩ := List.mem_flatMap.mp h
  rcases List.mem_cons.mp h with h | h
  · cases h
  · exact (l.separate _ (List.mem_cons_of_mem _ ha)).2 h

theorem trim_packet : ∃ d, l.packet = .data d ∧ trimTrailingNewline d = l.text := by
  refine ⟨_, rfl, ?_⟩
  cases l.newline with
  | true => rw [if_pos rfl, trimTrailingNewline, if_pos (by simp), List.dropLast_concat]
  | false =>
      rw [if_neg Bool.false_ne_true, trimTrailingNewline, if_neg]
      exact fun h => newline_not_mem_text (List.mem_of_getLast? h)

/-- A line in UTF-8 is its first word and what is behind it. -/
theorem split_text {t : Str} (h : fromUtf8 l.text = some t) :
    ∃ rest, t = l.head ++ ' ' :: rest ∧ toUtf8 rest = l.behind := by
  have hhead : (32 : UInt8) ∉ toUtf8 l.head :=
    fun hmem => space_not_mem_head ((ascii_mem_toUtf8 (by decide)).mp hmem)
  obtain ⟨word, rest, rfl, -, hword, hrest⟩ := split_toUtf8 (toUtf8_of_fromUtf8 h) hhead
  exact ⟨rest, by rw [toUtf8_injective hword], hrest⟩

/-- The name is what is behind the first word up to a space. -/
theorem firstWord_behind {s : Str} (h : toUtf8 s = l.behind) : toUtf8 (firstWord s) = l.name := by
  have hname := (l.separate _ List.mem_cons_self).1
  cases hattrs : l.attributes with
  | nil =>
      rw [behind, hattrs, List.flatMap_nil, List.append_nil] at h
      rw [firstWord_eq_self.mpr fun hs => hname (h ▸ (ascii_mem_toUtf8 (by decide)).mpr hs), h]
  | cons a as =>
      rw [behind, hattrs, List.flatMap_cons, List.cons_append] at h
      obtain ⟨word, rest, rfl, hword, hname, -⟩ := split_toUtf8 h hname
      rw [firstWord_append_space, firstWord_eq_self.mpr hword, hname]

/-- **A line is read** where it is of a ref and in UTF-8. -/
theorem lsRefsLine_ok {refs refs' : List AdvertisedRef} :
    V2.lsRefsLine algo refs l.text = .ok refs' ↔
    l.Readable ∧ ∃ r, l.ref = some (toUtf8 r.name, r.id) ∧ refs' = refs ++ [r] := by
  cases htext : fromUtf8 l.text with
  | none =>
      rw [V2.lsRefsLine, utf8OrProtocol, htext]
      refine ⟨fun h => (by cases h), fun h => ?_⟩
      have hsome := h.1.2
      rw [htext] at hsome
      cases hsome
  | some t =>
      obtain ⟨rest, rfl, hrest⟩ := split_text htext
      obtain ⟨more, hsplit⟩ := splitOn_space rest
      rw [V2.lsRefsLine, utf8OrProtocol, htext, except_ok_bind,
        List.splitOn_append_cons_self_of_not_mem space_not_mem_head, hsplit]
      simp only
      rw [Readable, ref, htext, ← firstWord_behind hrest]
      cases hoid : l.oid with
      | none =>
          rw [head, hoid]
          exact ⟨fun h => (by cases algo <;> cases h), fun h => absurd rfl h.1.1⟩
      | some id =>
          have hid : ObjectId.fromHex algo l.head = .ok id := by
            rw [head, hoid]
            exact ObjectId.fromHex_toHex_iff.mpr ⟨l.oid_algo id hoid, rfl⟩
          rw [hid]
          constructor
          · intro h
            cases h
            exact ⟨⟨Option.some_ne_none id, rfl⟩, _, rfl, rfl⟩
          · rintro ⟨-, ⟨name, id'⟩, hr, rfl⟩
            obtain ⟨hname, rfl⟩ := Prod.mk.inj (Option.some.inj hr)
            cases toUtf8_injective hname
            rfl

/-- A line that can be read is of a ref with a name. -/
theorem Readable.exists_ref (h : l.Readable) :
    ∃ r : AdvertisedRef, l.ref = some (toUtf8 r.name, r.id) := by
  obtain ⟨id, hid⟩ := Option.ne_none_iff_exists'.mp h.1
  obtain ⟨t, ht⟩ := Option.isSome_iff_exists.mp h.2
  obtain ⟨rest, -, hrest⟩ := split_text ht
  exact ⟨⟨firstWord rest, id⟩, by rw [ref, hid, firstWord_behind hrest]; rfl⟩

end LsRefsLine

variable {algo : HashAlgo}

/-- The refs that are read, as an answer has them. -/
def listed (refs : List AdvertisedRef) : List (Bytes × ObjectId) :=
  refs.map fun r => (toUtf8 r.name, r.id)

/-- What the lines up to a flush are read as. -/
theorem foldLines_answer {lines : List (LsRefsLine algo)} {rest : List Packet}
    {refs refs' : List AdvertisedRef} :
    foldLines (· == .flush) (V2.lsRefsLine algo) refs
      (lines.map LsRefsLine.packet ++ .flush :: rest) = .ok refs' ↔
      (∀ l ∈ lines, l.Readable) ∧ ∃ new, refs' = refs ++ new ∧
        listed new = lines.filterMap LsRefsLine.ref := by
  induction lines generalizing refs with
  | nil =>
      constructor
      · intro h
        cases h
        exact ⟨by simp, [], (List.append_nil _).symm, rfl⟩
      · rintro ⟨-, new, rfl, hnew⟩
        rw [List.map_eq_nil_iff.mp hnew, List.append_nil]
        rfl
  | cons l lines ih =>
      obtain ⟨d, hpacket, htrim⟩ := @LsRefsLine.trim_packet algo l
      rw [List.map_cons, List.cons_append, hpacket]
      unfold foldLines
      simp only [beq_iff_eq, reduceCtorEq, if_false, htrim]
      rw [except_bind_ok, List.forall_mem_cons]
      constructor
      · rintro ⟨refs₁, hline, h⟩
        obtain ⟨hl, r, hr, rfl⟩ := LsRefsLine.lsRefsLine_ok.mp hline
        obtain ⟨hall, new, rfl, hnew⟩ := ih.mp h
        refine ⟨⟨hl, hall⟩, r :: new, List.append_assoc _ _ _, ?_⟩
        rw [List.filterMap_cons_some hr, ← hnew]
        rfl
      · rintro ⟨⟨hl, hall⟩, new, rfl, hnew⟩
        obtain ⟨id, hid⟩ := Option.ne_none_iff_exists'.mp hl.1
        have hr : l.ref = some (l.name, id) := by rw [LsRefsLine.ref, hid]; rfl
        rw [List.filterMap_cons_some hr] at hnew
        obtain ⟨r, new, rfl, hr', hnew⟩ := List.map_eq_cons_iff.mp hnew
        refine ⟨refs ++ [r], LsRefsLine.lsRefsLine_ok.mpr ⟨hl, r,
          hr.trans (congrArg some hr'.symm), rfl⟩, ?_⟩
        exact ih.mpr ⟨hall, new, (List.append_cons _ _ _), hnew⟩

theorem exists_listed {lines : List (LsRefsLine algo)} (h : ∀ l ∈ lines, l.Readable) :
    ∃ refs, listed refs = lines.filterMap LsRefsLine.ref := by
  induction lines with
  | nil => exact ⟨[], rfl⟩
  | cons l lines ih =>
      rw [List.forall_mem_cons] at h
      obtain ⟨r, hr⟩ := h.1.exists_ref
      obtain ⟨refs, hrefs⟩ := ih h.2
      exact ⟨r :: refs, by rw [List.filterMap_cons_some hr, ← hrefs]; rfl⟩

/-- **An answer is read as what it says** exactly when every line is of a ref and in UTF-8. -/
theorem parseLsRefsResponse_iff (algo : HashAlgo) (lines : List (LsRefsLine algo))
    (rest : List Packet) :
    (∃ refs, V2.parseLsRefsResponse algo (lines.map LsRefsLine.packet ++ .flush :: rest) =
      .ok refs ∧
      listed refs = lines.filterMap LsRefsLine.ref) ↔ ∀ l ∈ lines, l.oid ≠ none ∧
        (fromUtf8 l.text).isSome := by
  constructor
  · rintro ⟨refs, hparse, -⟩
    exact (foldLines_answer.mp hparse).1
  · intro h
    obtain ⟨refs, hrefs⟩ := exists_listed h
    exact ⟨refs, foldLines_answer.mpr ⟨h, refs, rfl, hrefs⟩, hrefs⟩

/-- The line of an unborn HEAD. -/
def unbornHead : LsRefsLine .sha1 where
  oid := none
  name := bytes "HEAD"
  attributes := [bytes "symref-target:refs/heads/main"]
  newline := true
  oid_algo := nofun
  separate := by decide

/-- **A new repository cannot be asked for its refs**: its answer is read as an error. -/
theorem not_parseLsRefsResponse_unborn : ¬∀ (algo : HashAlgo) (lines : List (LsRefsLine algo)),
    ∃ refs, V2.parseLsRefsResponse algo (lines.map LsRefsLine.packet ++ [.flush]) = .ok refs ∧
      listed refs = lines.filterMap LsRefsLine.ref := by
  intro h
  obtain ⟨refs, hparse, -⟩ := h .sha1 [unbornHead]
  exact ((foldLines_answer.mp hparse).1 unbornHead List.mem_cons_self).1 rfl

end Puregit.Client
