import Puregit.Pack.Agreement
import Puregit.Pack.Frame

/-! # A pack off a stream

A push sends a pack after its commands, and nothing says how long the pack is.  The server walks
the frames of what has arrived and reads on where a frame is not whole yet.  That comes to waiting
until the bytes of the pack are there, as the front-to-back reader counts them: `readFullPack_eq`.
It ends with them, `readFullPack_spec`, unless the buffer has grown too large before.
-/
namespace Puregit.Server
open Pack

/-- The most a buffer may hold when there is more to read. -/
def maxReceivePackBytes : Nat := 2 * 1024 * 1024 * 1024

/-- Reads one chunk onto the buffer.  The stream is the chunks its reads will give; an empty one
is its end. -/
def readMore (reads : List Bytes) (buf : Bytes) : Except Error (List Bytes × Bytes) :=
  if maxReceivePackBytes < buf.length then
    .error (.pack (str "ssh: receive-pack packfile too large"))
  else match reads with
    | [] => .error (.pack (str "ssh: receive-pack packfile truncated"))
    | chunk :: reads =>
      if chunk.isEmpty then .error (.pack (str "ssh: receive-pack packfile truncated"))
        else .ok (reads, buf ++ chunk)

theorem readMore_ok_iff {reads reads' : List Bytes} {buf buf' : Bytes} :
    readMore reads buf = .ok (reads', buf') ↔
      buf.length ≤ maxReceivePackBytes ∧ ∃ chunk, chunk ≠ [] ∧ reads = chunk :: reads' ∧
        buf' = buf ++ chunk := by
  unfold readMore
  split
  · rename_i hlarge
    exact ⟨fun h => (by cases h), fun h => absurd h.1 (Nat.not_le.mpr hlarge)⟩
  rename_i hsmall
  cases reads with
  | nil => exact ⟨fun h => (by cases h), fun ⟨_, _, _, h, _⟩ => (by cases h)⟩
  | cons chunk reads =>
      simp only
      split
      · rename_i hempty
        refine ⟨fun h => (by cases h), ?_⟩
        rintro ⟨-, chunk', hne, heq, -⟩
        obtain ⟨rfl, rfl⟩ := List.cons.inj heq
        exact absurd (List.isEmpty_iff.mp hempty) hne
      · rename_i hfull
        constructor
        · intro h
          cases h
          exact ⟨Nat.not_lt.mp hsmall, chunk, fun hnil =>
            hfull (List.isEmpty_iff.mpr hnil), rfl, rfl⟩
        · rintro ⟨-, chunk', -, heq, rfl⟩
          obtain ⟨rfl, rfl⟩ := List.cons.inj heq
          rfl

theorem length_readMore {reads reads' : List Bytes} {buf buf' : Bytes}
    (h : readMore reads buf = .ok (reads', buf')) :
    reads'.length < reads.length := by
  obtain ⟨-, chunk, -, rfl, -⟩ := readMore_ok_iff.mp h
  exact Nat.lt_succ_self _

/-- Reads until the buffer holds at least `target` bytes. -/
def fillTo (reads : List Bytes) (buf : Bytes) (target : Nat) : Except Error (List Bytes × Bytes) :=
  if target ≤ buf.length then .ok (reads, buf)
  else match _h : readMore reads buf with
    | .error e => .error e
    | .ok (reads', buf') => fillTo reads' buf' target
termination_by reads.length
decreasing_by exact length_readMore _h

/-- Walks the frames that are left, reading on where one is not whole. -/
def walkFrames (z : Zlib) (algo : HashAlgo) (start : Nat) (reads : List Bytes) (buf : Bytes)
    (left off : Nat) :
    Except Error (List Bytes × Bytes × Nat) :=
  match left with
  | 0 => .ok (reads, buf, off)
  | left + 1 =>
    match packFrameEnd z (buf.drop start) off algo with
    | .ok next => walkFrames z algo start reads buf left next
    | .error _ => match _h : readMore reads buf with
      | .error e => .error e
      | .ok (reads', buf') => walkFrames z algo start reads' buf' (left + 1) off
termination_by reads.length + left
decreasing_by
  · omega
  · have := length_readMore _h
    omega

/-- Appends a complete pack of the stream to the buffer, with what the stream then has left. -/
def readFullPack (z : Zlib) (algo : HashAlgo) (reads : List Bytes) (buf : Bytes) :
    Except Error (List Bytes × Bytes) := do
  let start := buf.length
  let (reads, buf) ← fillTo reads buf (start + 12)
  if (buf.drop start).take 4 ≠ packSignature then .error (.pack (str "ssh: expected a packfile"))
  else
    let count := ObjectId.natOfBytes (((buf.drop start).drop 8).take 4)
    let (reads, buf, off) ← walkFrames z algo start reads buf count 12
    let (reads, buf) ← fillTo reads buf (start + off + algo.rawLen)
    .ok (reads, buf.take (start + off + algo.rawLen))

/-! ## Waiting for bytes -/

theorem fillTo_of_le {reads : List Bytes} {buf : Bytes} {target : Nat} (h : target ≤ buf.length) :
    fillTo reads buf target = .ok (reads, buf) := by
  rw [fillTo, if_pos h]

theorem fillTo_of_lt {reads : List Bytes} {buf : Bytes} {target : Nat} (h : buf.length < target) :
    fillTo reads buf target = readMore reads buf >>= fun r => fillTo r.1 r.2 target := by
  rw [fillTo, if_neg (Nat.not_le.mpr h)]
  split
  · rename_i hread
    rw [hread]
    rfl
  · rename_i hread
    rw [hread]
    rfl

/-- What a loop that reads on gives: nothing behind a failed read, and less of the stream to come
behind a read. -/
theorem readMore_cases {α : Type} {f g : List Bytes × Bytes → Except Error α}
    {reads : List Bytes} {buf : Bytes} (h : ∀ chunk reads', reads = chunk :: reads' →
      f (reads', buf ++ chunk) = g (reads', buf ++ chunk)) :
    readMore reads buf >>= f = readMore reads buf >>= g := by
  cases hread : readMore reads buf with
  | error e => rfl
  | ok r =>
      obtain ⟨reads', buf'⟩ := r
      obtain ⟨-, chunk, -, hreads, rfl⟩ := readMore_ok_iff.mp hread
      exact h chunk reads' hreads

/-- Waiting twice is waiting for the more. -/
theorem fillTo_fillTo {reads : List Bytes} {buf : Bytes} {target target' : Nat}
    (h : target ≤ target') :
    (fillTo reads buf target >>= fun r => fillTo r.1 r.2 target') = fillTo reads buf target' := by
  induction reads generalizing buf with
  | nil =>
      by_cases htarget : target ≤ buf.length
      · rw [fillTo_of_le htarget]
        rfl
      · rw [fillTo_of_lt (Nat.not_le.mp htarget), fillTo_of_lt (by omega), bind_assoc]
        exact readMore_cases fun chunk reads' hreads => by cases hreads
  | cons chunk reads ih =>
      by_cases htarget : target ≤ buf.length
      · rw [fillTo_of_le htarget]
        rfl
      · rw [fillTo_of_lt (Nat.not_le.mp htarget), fillTo_of_lt (by omega), bind_assoc]
        refine readMore_cases fun chunk' reads' hreads => ?_
        obtain ⟨rfl, rfl⟩ := List.cons.inj hreads
        exact ih

/-- The bytes before the stream's, and those of the stream that have arrived. -/
structure Arrived (before data : Bytes) (reads : List Bytes) (buf : Bytes) : Prop where
  all : buf ++ reads.flatten = before ++ data
  reached : before.length ≤ buf.length

namespace Arrived

variable {before data : Bytes} {reads : List Bytes} {buf : Bytes}

theorem step {chunk : Bytes} (h : Arrived before data (chunk :: reads) buf) :
    Arrived before data reads (buf ++ chunk) := by
  refine ⟨?_, ?_⟩
  · rw [List.append_assoc, ← List.flatten_cons, h.all]
  · rw [List.length_append]
    exact le_trans h.reached (Nat.le_add_right _ _)

/-- The buffer holds the front of the stream behind what it held. -/
theorem take_eq (h : Arrived before data reads buf) :
    buf = before ++ data.take (buf.length - before.length) := by
  have hfront := congrArg (List.take buf.length) h.all
  rwa [List.take_left, List.take_append, List.take_of_length_le h.reached] at hfront

theorem drop_eq (h : Arrived before data reads buf) :
    buf.drop before.length = data.take (buf.length - before.length) := by
  conv_lhs => rw [h.take_eq]
  rw [List.drop_left]

end Arrived

/-- What waiting leaves has arrived, and is enough. -/
theorem fillTo_arrived {before data : Bytes} {reads reads' : List Bytes} {buf buf' : Bytes}
    {target : Nat} (h : Arrived before data reads buf)
    (hfill : fillTo reads buf target = .ok (reads', buf')) :
    Arrived before data reads' buf' ∧ target ≤ buf'.length := by
  induction reads generalizing buf with
  | nil =>
      by_cases htarget : target ≤ buf.length
      · rw [fillTo_of_le htarget] at hfill
        cases hfill
        exact ⟨h, htarget⟩
      · rw [fillTo_of_lt (Nat.not_le.mp htarget)] at hfill
        obtain ⟨r, hread, -⟩ := except_bind_ok.mp hfill
        obtain ⟨-, chunk, -, hreads, -⟩ := readMore_ok_iff.mp hread
        cases hreads
  | cons chunk reads ih =>
      by_cases htarget : target ≤ buf.length
      · rw [fillTo_of_le htarget] at hfill
        cases hfill
        exact ⟨h, htarget⟩
      · rw [fillTo_of_lt (Nat.not_le.mp htarget)] at hfill
        obtain ⟨⟨reads₁, buf₁⟩, hread, hrest⟩ := except_bind_ok.mp hfill
        obtain ⟨-, chunk', -, hreads, rfl⟩ := readMore_ok_iff.mp hread
        obtain ⟨rfl, rfl⟩ := List.cons.inj hreads
        exact ih h.step hrest

/-- How much the buffer holds after `k` reads. -/
def held (reads : List Bytes) (buf : Bytes) (k : Nat) : Nat :=
  buf.length + (reads.take k).flatten.length

/-- **Waiting ends** just when the stream has as many bytes and no read is due with too many in the
buffer. -/
theorem fillTo_ok_iff {reads : List Bytes} {buf : Bytes} {target : Nat}
    (hchunks : ∀ c ∈ reads, c ≠ []) :
    (∃ r, fillTo reads buf target = .ok r) ↔ target ≤ buf.length + reads.flatten.length ∧
      ∀ k, held reads buf k < target → held reads buf k ≤ maxReceivePackBytes := by
  induction reads generalizing buf with
  | nil =>
      by_cases htarget : target ≤ buf.length
      · rw [fillTo_of_le htarget]
        refine ⟨fun _ => ⟨by simpa using htarget, fun k hk => absurd htarget ?_⟩, fun _ => ⟨_, rfl⟩⟩
        rw [held, List.take_nil, List.flatten_nil] at hk
        exact Nat.not_le.mpr hk
      · rw [fillTo_of_lt (Nat.not_le.mp htarget)]
        constructor
        · rintro ⟨r, h⟩
          obtain ⟨r', hread, -⟩ := except_bind_ok.mp h
          obtain ⟨-, chunk, -, hreads, -⟩ := readMore_ok_iff.mp hread
          cases hreads
        · intro h
          exact absurd h.1 htarget
  | cons chunk reads ih =>
      by_cases htarget : target ≤ buf.length
      · rw [fillTo_of_le htarget]
        refine ⟨fun _ => ⟨le_trans htarget (Nat.le_add_right _ _), fun k hk => absurd htarget ?_⟩,
          fun _ => ⟨_, rfl⟩⟩
        rw [held] at hk
        omega
      · have hshort := Nat.not_le.mp htarget
        have hheld : ∀ k, held (chunk :: reads) buf (k + 1) = held reads (buf ++ chunk) k := by
          intro k
          rw [held, held, List.take_succ_cons, List.flatten_cons, List.length_append,
            List.length_append, Nat.add_assoc]
        have hzero : held (chunk :: reads) buf 0 = buf.length := rfl
        have hmore := @ih (buf ++ chunk) fun c hc => hchunks c (List.mem_cons_of_mem chunk hc)
        rw [List.length_append, Nat.add_assoc] at hmore
        rw [fillTo_of_lt hshort, List.flatten_cons, List.length_append]
        constructor
        · rintro ⟨r, h⟩
          obtain ⟨⟨reads', buf'⟩, hread, h⟩ := except_bind_ok.mp h
          obtain ⟨hmax, chunk', -, hreads, rfl⟩ := readMore_ok_iff.mp hread
          obtain ⟨rfl, rfl⟩ := List.cons.inj hreads
          obtain ⟨hlen, hall⟩ := hmore.mp ⟨r, h⟩
          refine ⟨hlen, fun k hk => ?_⟩
          cases k with
          | zero => exact hmax
          | succ k =>
              rw [hheld] at hk ⊢
              exact hall k hk
        · rintro ⟨hlen, hall⟩
          have hmax := hall 0 (by rw [hzero]; exact hshort)
          obtain ⟨r, h⟩ := hmore.mpr ⟨hlen, fun k hk => by
            rw [← hheld] at hk ⊢
            exact hall (k + 1) hk⟩
          refine ⟨r, except_bind_ok.mpr ⟨(reads, buf ++ chunk),
            readMore_ok_iff.mpr ⟨hmax, chunk, ?_, rfl, rfl⟩, h⟩⟩
          exact hchunks chunk List.mem_cons_self

/-! ## The frames of the pack -/

/-- Entries one after the other, with where the last of them ends. -/
inductive Frames (z : Zlib) (algo : HashAlgo) (data : Bytes) : Nat → Nat → Nat → Prop
  | nil {off : Nat} : Frames z algo data 0 off off
  | cons {n off next last : Nat} {e : Pack.Entry} : EntryAt z algo data off e next →
    Frames z algo data n next last →
      Frames z algo data (n + 1) off last

section
variable {z : Zlib} {algo : HashAlgo} {data : Bytes} {h : Hasher} {resolve : ExternalResolver}

theorem frames_of_explodeEntries {n : Nat} {s s' : Exploded}
    (hrun : explodeEntries z h algo resolve data n s = .ok s') :
    Frames z algo data n s.offset s'.offset := by
  induction n generalizing s with
  | zero =>
      cases hrun
      exact .nil
  | succ n ih =>
      obtain ⟨⟨ty, content, next⟩, hdec, hrun⟩ := except_bind_ok.mp hrun
      obtain ⟨e, hat, -⟩ := decodeEntry_ok.mp hdec
      exact .cons hat (ih hrun)

theorem Frames.le (hz : z.Delimits) {n off last : Nat} (hf : Frames z algo data n off last) :
    off ≤ last ∧ (off ≤ data.length → last ≤ data.length) := by
  induction hf with
  | nil => exact ⟨le_rfl, id⟩
  | cons hat _ ih =>
      have hspan := (entryCursor_local hz algo).within (entryCursor_ok_iff.mpr hat)
      exact ⟨le_trans hspan.1 ih.1, fun _ => ih.2 hspan.2⟩

/-- What follows the pack does not matter. -/
theorem Frames.append (hz : z.Delimits) {n off last : Nat} (hf : Frames z algo data n off last)
    (rest : Bytes) :
    Frames z algo (data ++ rest) n off last := by
  induction hf with
  | nil => exact .nil
  | cons hat _ ih =>
      have hread := entryCursor_ok_iff.mpr hat
      have hspan := (entryCursor_local hz algo).within hread
      refine .cons (entryCursor_ok_iff.mp ((entryCursor_local hz algo).same hread ?_)) ih
      rw [List.take_append_of_le_length hspan.2]

theorem walkFrames_frame {start : Nat} {reads : List Bytes} {buf : Bytes} {n off next : Nat}
    (hend : packFrameEnd z (buf.drop start) off algo = .ok next) :
    walkFrames z algo start reads buf (n + 1) off = walkFrames z algo start reads buf n next := by
  rw [walkFrames]
  simp only [hend]

theorem walkFrames_more {start : Nat} {reads : List Bytes} {buf : Bytes} {n off : Nat} {e : Error}
    (hend : packFrameEnd z (buf.drop start) off algo = .error e) :
      walkFrames z algo start reads buf (n + 1) off =
      readMore reads buf >>= fun r => walkFrames z algo start r.1 r.2 (n + 1) off := by
  rw [walkFrames]
  simp only [hend]
  split
  · rename_i hread
    rw [hread]
    rfl
  · rename_i hread
    rw [hread]
    rfl

/-- **Walking the frames is waiting for them.** -/
theorem walkFrames_eq (hz : z.Delimits) {n off last : Nat} (hf : Frames z algo data n off last)
    {before : Bytes} {reads : List Bytes} {buf : Bytes} (harrived : Arrived before data reads buf)
    (hoff : before.length + off ≤ buf.length) :
    walkFrames z algo before.length reads buf n off =
      (fillTo reads buf (before.length + last)).map fun r => (r.1, r.2, last) := by
  induction hf generalizing reads buf with
  | nil =>
      rw [walkFrames, fillTo_of_le hoff]
      rfl
  | @cons n off next last e hat hf ih =>
      have hspan := (entryCursor_local hz algo).within (entryCursor_ok_iff.mpr hat)
      have hnext : next ≤ last := (hf.le hz).1
      have hframe : ∀ {reads buf}, Arrived before data reads buf →
        before.length + next ≤ buf.length →
          walkFrames z algo before.length reads buf (n + 1) off =
            (fillTo reads buf (before.length + last)).map fun r => (r.1, r.2, last) := by
        intro reads buf harrived hwhole
        have hend := (packFrameEnd_take hz hat (buf.length - before.length)).1 (by omega)
        rw [← harrived.drop_eq] at hend
        rw [walkFrames_frame hend]
        exact ih harrived hwhole
      have hmore : ∀ {reads buf}, Arrived before data reads buf →
        buf.length < before.length + next →
          walkFrames z algo before.length reads buf (n + 1) off =
            readMore reads buf >>= fun r =>
              walkFrames z algo before.length r.1 r.2 (n + 1) off := by
        intro reads buf harrived hshort
        obtain ⟨error, hend⟩ := (packFrameEnd_take hz hat (buf.length - before.length)).2 (by
          have := harrived.reached
          omega)
        rw [← harrived.drop_eq] at hend
        exact walkFrames_more hend
      have hmap : ∀ (x : Except Error (List Bytes × Bytes)) (g : List Bytes × Bytes →
        Except Error (List Bytes × Bytes)),
          (x >>= g).map (fun r => (r.1, r.2, last)) = x >>= fun r => (g r).map fun r =>
            (r.1, r.2, last) := by
        intro x g
        cases x <;> rfl
      induction reads generalizing buf with
      | nil =>
          by_cases hwhole : before.length + next ≤ buf.length
          · exact hframe harrived hwhole
          · rw [hmore harrived (Nat.not_le.mp hwhole), fillTo_of_lt (by omega), hmap]
            exact readMore_cases fun chunk reads' hreads => by cases hreads
      | cons chunk reads ih' =>
          by_cases hwhole : before.length + next ≤ buf.length
          · exact hframe harrived hwhole
          · rw [hmore harrived (Nat.not_le.mp hwhole), fillTo_of_lt (by omega), hmap]
            refine readMore_cases fun chunk' reads' hreads => ?_
            obtain ⟨rfl, rfl⟩ := List.cons.inj hreads
            refine ih' harrived.step ?_
            rw [List.length_append]
            omega

/-! ## The pack -/

/-- **Reading a pack off a stream** is waiting for its bytes, as the front-to-back reader counts
them, and leaving no others. -/
theorem readFullPack_eq (hz : z.Delimits) {results : List ExplodedObject} {consumed : Nat}
    (hx : explodePackPrefix z h data algo resolve = .ok (results, consumed)) {rest : Bytes}
    {reads : List Bytes} (hreads : reads.flatten = data ++ rest) (buf : Bytes) :
    readFullPack z algo reads buf = (fillTo reads buf (buf.length + consumed)).map
      fun r => (r.1, r.2.take (buf.length + consumed)) := by
  rw [explodePackPrefix] at hx
  split at hx
  · cases hx
  rename_i hhead
  rw [not_or, Nat.not_lt, not_not] at hhead
  obtain ⟨s, hrun, hx⟩ := except_bind_ok.mp hx
  split at hx
  · cases hx
  rename_i hlong
  cases hx
  have hframes := (frames_of_explodeEntries hrun).append hz rest
  have hstart : Exploded.start.offset = 12 := rfl
  rw [hstart] at hframes
  have hoff := (hframes.le hz).1
  have harrived : Arrived buf (data ++ rest) reads buf := ⟨by rw [hreads], le_rfl⟩
  have hwait : buf.length + 12 ≤ buf.length + (s.offset + algo.rawLen) := by omega
  rw [readFullPack, ← fillTo_fillTo hwait]
  cases hfill : fillTo reads buf (buf.length + 12) with
  | error e => rfl
  | ok r =>
      obtain ⟨reads', buf'⟩ := r
      obtain ⟨harrived', hheader⟩ := fillTo_arrived harrived hfill
      have hfront : (buf'.drop buf.length).take 12 = data.take 12 := by
        rw [harrived'.drop_eq, List.take_take, Nat.min_eq_left (by omega),
          List.take_append_of_le_length hhead.1]
      have hsignature : (buf'.drop buf.length).take 4 = packSignature := by
        have hfour := congrArg (List.take 4) hfront
        rw [List.take_take, List.take_take] at hfour
        exact hfour.trans hhead.2
      have hcount : ((buf'.drop buf.length).drop 8).take 4 = (data.drop 8).take 4 := by
        have height := congrArg (List.drop 8) hfront
        rwa [List.drop_take, List.drop_take] at height
      rw [except_ok_bind, except_ok_bind]
      simp only
      rw [if_neg (not_not.mpr hsignature), hcount, walkFrames_eq hz hframes harrived' hheader]
      have hlast : buf.length + s.offset ≤ buf.length + (s.offset + algo.rawLen) := by omega
      rw [← fillTo_fillTo hlast]
      cases fillTo reads' buf' (buf.length + s.offset) with
      | error e => rfl
      | ok r =>
          obtain ⟨reads'', buf''⟩ := r
          show (fillTo reads'' buf'' (buf.length + s.offset + algo.rawLen) >>= fun r =>
            Except.ok (r.1, r.2.take (buf.length + s.offset + algo.rawLen))) = _
          rw [Nat.add_assoc]
          exact except_bind_pure

/-- **A pack is read off its stream** unless a read is due with too much in the buffer, and what is
then in the buffer is the pack, behind what was there. -/
theorem readFullPack_spec (hz : z.Delimits) {results : List ExplodedObject} {consumed : Nat}
    (hx : explodePackPrefix z h data algo resolve = .ok (results, consumed)) {rest : Bytes}
    {reads : List Bytes} (hreads : reads.flatten = data ++ rest) (hchunks : ∀ c ∈ reads, c ≠ [])
    (buf : Bytes) :
    ((∃ r, readFullPack z algo reads buf = .ok r) ↔
      ∀ k, held reads buf k < buf.length + consumed → held reads buf k ≤ maxReceivePackBytes) ∧
    ∀ r, readFullPack z algo reads buf = .ok r → r.2 = buf ++ data.take consumed := by
  have hlen : consumed ≤ data.length := by
    rw [explodePackPrefix] at hx
    split at hx
    · cases hx
    obtain ⟨s, -, hx⟩ := except_bind_ok.mp hx
    split at hx
    · cases hx
    · rename_i hlong
      cases hx
      exact Nat.not_lt.mp hlong
  have heq := readFullPack_eq hz hx hreads buf
  constructor
  · have hfill := @fillTo_ok_iff reads buf (buf.length + consumed) hchunks
    rw [hreads, List.length_append, and_iff_right (by omega)] at hfill
    rw [← hfill, heq]
    constructor
    · rintro ⟨r, hr⟩
      obtain ⟨r', hr', -⟩ := except_map_ok.mp hr
      exact ⟨r', hr'⟩
    · rintro ⟨r, hr⟩
      exact ⟨_, except_map_ok.mpr ⟨r, hr, rfl⟩⟩
  · intro r hr
    obtain ⟨⟨reads', buf'⟩, hfill, rfl⟩ := except_map_ok.mp (heq.symm.trans hr)
    have hstart : Arrived buf (data ++ rest) reads buf := ⟨by rw [hreads], le_rfl⟩
    obtain ⟨harrived, hlong⟩ := fillTo_arrived hstart hfill
    show buf'.take (buf.length + consumed) = _
    rw [harrived.take_eq, List.take_length_add_append, List.take_take, Nat.min_eq_left (by omega),
      List.take_append_of_le_length hlen]

end

/-! ## Two packs -/

namespace StreamSample
open PackSample

/-- The stream comes byte by byte. -/
def byByte (data : Bytes) : List Bytes := data.map fun b => [b]

theorem flatten_byByte (data : Bytes) : (byByte data).flatten = data := by
  induction data with
  | nil => rfl
  | cons b data ih => exact congrArg (b :: ·) ih

theorem byByte_ne_nil {data : Bytes} : ∀ c ∈ byByte data, c ≠ [] := by
  intro c hc
  obtain ⟨b, -, rfl⟩ := List.mem_map.mp hc
  exact List.cons_ne_nil b []

theorem held_byByte (data : Bytes) {k : Nat} (hk : k ≤ data.length) :
    held (byByte data) [] k = k := by
  have htake : (byByte data).take k = byByte (data.take k) := List.map_take.symm
  rw [held, htake, flatten_byByte, List.length_take, Nat.min_eq_left hk]
  exact Nat.zero_add k

/-- A small pack is read, and what follows it is left. -/
theorem readFullPack_round :
    ∃ r, readFullPack Zlib.stored .sha1 (byByte (roundPack ++ bytes "next")) [] = .ok r ∧
    r.2 = roundPack.take 140 := by
  have hspec := readFullPack_spec Zlib.stored_delimits explode_round
    (flatten_byByte (roundPack ++ bytes "next"))
    byByte_ne_nil []
  obtain ⟨r, hr⟩ := hspec.1.mpr fun k hk => by
    have hmax : maxReceivePackBytes = 2147483648 := rfl
    rw [List.length_nil] at hk
    omega
  exact ⟨r, hr, hspec.2 r hr⟩

/-- The entry of an empty blob. -/
def emptyBlob : Bytes := [0x30, 0x78, 0x01, 0x01, 0, 0, 255, 255, 0, 0, 0, 1]

/-- The entries of `n` empty blobs, and a checksum. -/
def blobs (n : Nat) : Bytes := (List.replicate n emptyBlob).flatten ++ List.replicate 20 0

/-- A pack of `n` empty blobs. -/
def manyBlobs (n : Nat) : Bytes := packSignature ++ [0, 0, 0, 2] ++ Sha.bigEndian 4 n ++ blobs n

theorem entryAt_emptyBlob {data rest : Bytes} {off : Nat}
    (hdata : data.drop off = emptyBlob ++ rest) :
    EntryAt Zlib.stored .sha1 data off (.whole .blob []) (off + 12) := by
  have hheader : parseEntryHeaderAt data off = .ok (.whole .blob, 0, 1) := by
    rw [parseEntryHeaderAt, hdata]
    rfl
  have hbody : data.drop (off + 1) = emptyBlob.drop 1 ++ rest := by
    rw [← List.drop_drop, hdata]
    rfl
  have hinflate : Zlib.stored.inflateExact (data.drop (off + 1)) 0 = .ok ([], 11) := by
    rw [hbody]
    exact Zlib.stored_exact [] (emptyBlob.drop 1) rest rfl
  exact .whole hheader hinflate

theorem explode_blobs {n : Nat} {data : Bytes} {s : Exploded} {rest : Bytes}
    (hdata : data.drop s.offset = (List.replicate n emptyBlob).flatten ++ rest) :
    ∃ s', explodeEntries Zlib.stored Hasher.sha .sha1 outside data n s = .ok s' ∧
      s'.offset = s.offset + 12 * n := by
  induction n generalizing s with
  | zero => exact ⟨s, rfl, rfl⟩
  | succ n ih =>
      rw [List.replicate_succ, List.flatten_cons, List.append_assoc] at hdata
      have hdec : decodeEntry Zlib.stored .sha1 outside data s = .ok (.blob, [], s.offset + 12) :=
        decodeEntry_ok.mpr ⟨.whole .blob [], entryAt_emptyBlob hdata, rfl⟩
      have hnext : data.drop (s.offset + 12) = (List.replicate n emptyBlob).flatten ++ rest := by
        rw [← List.drop_drop, hdata]
        rfl
      obtain ⟨s', hrun, hoff⟩ :=
        @ih (s.record (hashObject Hasher.sha .sha1 .blob []) .blob [] (s.offset + 12)) hnext
      refine ⟨s', (explodeEntries_succ hdec).trans hrun, ?_⟩
      have hrecord : (s.record (hashObject Hasher.sha .sha1 .blob []) .blob []
        (s.offset + 12)).offset = s.offset + 12 := rfl
      rw [hoff, hrecord]
      omega

theorem length_manyBlobs (n : Nat) : (manyBlobs n).length = 32 + 12 * n := by
  have hblobs : (List.replicate n emptyBlob).flatten.length = n * 12 := by
    rw [List.length_flatten, List.map_replicate, List.sum_replicate_nat]
    rfl
  have hsignature : packSignature.length = 4 := rfl
  rw [manyBlobs, blobs, List.length_append, List.length_append, List.length_append,
    List.length_append, hblobs,
    Sha.length_bigEndian, hsignature, List.length_replicate]
  simp only [List.length_cons, List.length_nil]
  omega

theorem explode_manyBlobs {n : Nat} (hn : n < 2 ^ 32) : ∃ results,
    explodePackPrefix Zlib.stored Hasher.sha (manyBlobs n) .sha1 outside =
      .ok (results, 32 + 12 * n) := by
  have hlen := length_manyBlobs n
  have hhead : ¬ ((manyBlobs n).length < 12 ∨ (manyBlobs n).take 4 ≠ packSignature) := by
    rw [not_or, not_not, manyBlobs, List.append_assoc, List.append_assoc]
    exact ⟨by rw [← List.append_assoc, ← List.append_assoc,
      ← manyBlobs]; omega, List.take_left' rfl⟩
  have hcount : ObjectId.natOfBytes (((manyBlobs n).drop 8).take 4) = n := by
    have hdrop : (manyBlobs n).drop 8 = Sha.bigEndian 4 n ++ blobs n := by
      rw [manyBlobs, List.append_assoc]
      exact List.drop_left' rfl
    rw [hdrop, List.take_left' (Sha.length_bigEndian 4 n), ObjectId.natOfBytes_bigEndian,
      Nat.mod_eq_of_lt (by omega)]
  have hentries : (manyBlobs n).drop Exploded.start.offset =
      (List.replicate n emptyBlob).flatten ++ List.replicate 20 0 := by
    have hfront : (packSignature ++ [0, 0, 0, 2] ++ Sha.bigEndian 4 n).length = 12 := by
      rw [List.length_append, Sha.length_bigEndian]
      rfl
    rw [manyBlobs]
    exact List.drop_left' hfront
  obtain ⟨s, hrun, hoff⟩ := explode_blobs hentries
  have hstart : Exploded.start.offset = 12 := rfl
  have hraw : HashAlgo.sha1.rawLen = 20 := rfl
  rw [hstart] at hoff
  have hend : s.offset + HashAlgo.sha1.rawLen = 32 + 12 * n := by omega
  refine ⟨s.results, ?_⟩
  rw [← hend]
  exact explodePackPrefix_of_entries hhead (by rw [hcount]; exact hrun) (by omega)

/-- A pack of more than 2 GiB does not come through byte by byte. -/
theorem not_readFullPack_manyBlobs {n : Nat} (hn : n < 2 ^ 32)
    (hlarge : maxReceivePackBytes < 12 * n) :
    ¬ ∃ r, readFullPack Zlib.stored .sha1 (byByte (manyBlobs n)) [] = .ok r := by
  obtain ⟨results, hx⟩ := explode_manyBlobs hn
  have hreads : (byByte (manyBlobs n)).flatten = manyBlobs n ++ [] :=
    (flatten_byByte (manyBlobs n)).trans (List.append_nil _).symm
  have heq := readFullPack_eq Zlib.stored_delimits hx hreads []
  have hlen := length_manyBlobs n
  rintro ⟨r, hr⟩
  obtain ⟨r', hfill, -⟩ := except_map_ok.mp (heq.symm.trans hr)
  have hall := ((fillTo_ok_iff byByte_ne_nil).mp ⟨r', hfill⟩).2 (maxReceivePackBytes + 1)
  rw [held_byByte _ (by omega), List.length_nil] at hall
  have hmax := hall (by omega)
  omega

/-- **A large pack is not read**: behind 2 GiB there is no further read. -/
theorem not_readFullPack_large : (∃ results,
      explodePackPrefix Zlib.stored Hasher.sha (manyBlobs (2 ^ 28)) .sha1 outside =
        .ok (results, 32 + 12 * 2 ^ 28)) ∧
    ¬ ∃ r, readFullPack Zlib.stored .sha1 (byByte (manyBlobs (2 ^ 28))) [] = .ok r := by
  have hmax : maxReceivePackBytes < 12 * 2 ^ 28 := by decide
  exact ⟨explode_manyBlobs (by decide), not_readFullPack_manyBlobs (by decide) hmax⟩

end StreamSample

end Puregit.Server
