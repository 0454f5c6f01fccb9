import Puregit.Oid

/-! # Files of chunks

The multi-pack-index and the commit-graph are laid out alike: a header, a table that names every
chunk and says where it begins, the chunks, and a checksum.  The table has one row more than there
are chunks, which says where the last one ends; a chunk reaches up to where the next one begins.
-/
namespace Puregit.ChunkFile

/-- The chunk table of chunks of which the first begins at `offset`. -/
def table : Nat → List (Nat × Bytes) → Bytes
  | offset, [] => Sha.bigEndian 4 0 ++ Sha.bigEndian 8 offset
  | offset, (id, data) :: chunks =>
    Sha.bigEndian 4 id ++ (Sha.bigEndian 8 offset ++ table (offset + data.length) chunks)

/-- Reads the rows of a chunk table from `base` on, `rows` of them; they have to lie in a body of
`bodyLen` bytes. -/
def readTable (truncated : Error) (data : Bytes) (bodyLen : Nat) :
    Nat → Nat → Except Error (List (Nat × Nat))
  | 0, _ => .ok []
  | rows + 1, base =>
    if bodyLen < base + 12 then .error truncated
    else do
      let rest ← readTable truncated data bodyLen rows (base + 12)
      .ok ((number data base 4, number data (base + 4) 8) :: rest)

/-- The id of a chunk, where it begins and where it ends, from two rows of the table. -/
def windows : List (Nat × Nat) → List (Nat × Nat × Nat)
  | (id, start) :: (id', stop) :: rows => (id, start, stop) :: windows ((id', stop) :: rows)
  | _ => []

/-- Where chunks are, of which the first begins at `offset`. -/
def spans : Nat → List (Nat × Bytes) → List (Nat × Nat × Nat)
  | _, [] => []
  | offset, (id, data) :: chunks =>
    (id, offset, offset + data.length) :: spans (offset + data.length) chunks

/-- The rows of a chunk table. -/
def rows : Nat → List (Nat × Bytes) → List (Nat × Nat)
  | offset, [] => [(0, offset)]
  | offset, (id, data) :: chunks => (id, offset) :: rows (offset + data.length) chunks

variable {chunks : List (Nat × Bytes)} {offset : Nat}

/-- Whole ids fit the chunk they are counted in. -/
theorem count_le (algo : HashAlgo) (oids : Bytes) :
    oids.length / algo.rawLen * algo.rawLen ≤ oids.length :=
  Nat.div_mul_le_self _ _

theorem length_table (offset : Nat) (chunks : List (Nat × Bytes)) :
    (table offset chunks).length = (chunks.length + 1) * 12 := by
  induction chunks generalizing offset with
  | nil => rfl
  | cons c chunks ih =>
    rw [table, List.length_append, List.length_append, Sha.length_bigEndian,
      Sha.length_bigEndian, ih,
      List.length_cons]
    ring

/-- The chunks end where they begin and as much further as they are long. -/
theorem length_chunks_cons (id : Nat) (data : Bytes) (chunks : List (Nat × Bytes)) :
    (((id, data) :: chunks).flatMap Prod.snd).length =
      data.length + (chunks.flatMap Prod.snd).length := by
  rw [List.flatMap_cons, List.length_append]

/-- The table that was written is read. -/
theorem readTable_table {truncated : Error} {front rest : Bytes} {base bodyLen : Nat}
    (hfront : front.length = base) (hids : ∀ c ∈ chunks, c.1 < 2 ^ 32)
    (hend : offset + (chunks.flatMap Prod.snd).length < 2 ^ 64)
    (hbody : base + (chunks.length + 1) * 12 ≤ bodyLen) :
    readTable truncated (front ++ (table offset chunks ++ rest)) bodyLen (chunks.length + 1) base =
      .ok (rows offset chunks) := by
  induction chunks generalizing offset front base with
  | nil =>
    have hid : number (front ++ (table offset [] ++ rest)) base 4 = 0 := by
      rw [table, List.append_assoc]
      exact number_bigEndian_at hfront 4 (by decide) _
    have hoffset : number (front ++ (table offset [] ++ rest)) (base + 4) 8 = offset := by
      rw [table, List.append_assoc, ← List.append_assoc front]
      refine number_bigEndian_at ?_ 8 hend rest
      rw [List.length_append, Sha.length_bigEndian, hfront]
    rw [List.length_nil, readTable, if_neg (by rw [List.length_nil] at hbody; omega), hid, hoffset]
    rfl
  | cons c chunks ih =>
    obtain ⟨id, data⟩ := c
    obtain ⟨hid, hids⟩ := List.forall_mem_cons.mp hids
    rw [length_chunks_cons] at hend
    rw [List.length_cons] at hbody
    have hsplit : front ++ (table offset ((id, data) :: chunks) ++ rest) =
        front ++ Sha.bigEndian 4 id ++ Sha.bigEndian 8 offset ++
          (table (offset + data.length) chunks ++ rest) := by
      rw [table]
      simp only [List.append_assoc]
    have hnext : (front ++ Sha.bigEndian 4 id ++ Sha.bigEndian 8 offset).length = base + 12 := by
      rw [List.length_append, List.length_append, Sha.length_bigEndian,
        Sha.length_bigEndian, hfront]
    have hreadId : number (front ++ (table offset ((id, data) :: chunks) ++ rest)) base 4 = id := by
      rw [table, List.append_assoc]
      exact number_bigEndian_at hfront 4 hid _
    have hreadOffset : number (front ++ (table offset ((id, data) :: chunks) ++ rest))
        (base + 4) 8 = offset := by
      have hfits : offset < 256 ^ 8 := by omega
      rw [table, List.append_assoc, ← List.append_assoc front,
        List.append_assoc (Sha.bigEndian 8 offset)]
      refine number_bigEndian_at ?_ 8 hfits _
      rw [List.length_append, Sha.length_bigEndian, hfront]
    have hrest := @ih (offset + data.length) (front ++ Sha.bigEndian 4 id ++
      Sha.bigEndian 8 offset) (base + 12)
      hnext hids (by omega) (by omega)
    rw [List.length_cons, readTable, if_neg (by omega), hreadId, hreadOffset]
    rw [hsplit, hrest]
    rfl

/-- **The rows say where the chunks are.** -/
theorem windows_rows (offset : Nat) (chunks : List (Nat × Bytes)) :
    windows (rows offset chunks) = spans offset chunks := by
  induction chunks generalizing offset with
  | nil => rfl
  | cons c chunks ih =>
    obtain ⟨id, data⟩ := c
    rw [rows, spans, ← ih]
    cases chunks <;> rfl

/-- A chunk lies behind those before it. -/
theorem slice_chunk {front rest data : Bytes} {id start : Nat} {pre post : List (Nat × Bytes)}
    (hstart : front.length + (pre.flatMap Prod.snd).length = start) :
    slice (front ++ ((pre ++ (id, data) :: post).flatMap Prod.snd ++ rest)) start
      data.length = data := by
  have hsplit : front ++ ((pre ++ (id, data) :: post).flatMap Prod.snd ++ rest) =
      front ++ pre.flatMap Prod.snd ++ (data ++ (post.flatMap Prod.snd ++ rest)) := by
    rw [List.flatMap_append, List.flatMap_cons]
    simp only [List.append_assoc]
  rw [hsplit]
  exact slice_at (by rw [List.length_append, hstart]) rfl _

theorem spans_append (offset : Nat) (pre post : List (Nat × Bytes)) :
    spans offset (pre ++ post) = spans offset pre ++
      spans (offset + (pre.flatMap Prod.snd).length) post := by
  induction pre generalizing offset with
  | nil => rfl
  | cons c pre ih =>
    obtain ⟨id, data⟩ := c
    rw [List.cons_append, spans, spans, ih, length_chunks_cons, Nat.add_assoc, List.cons_append]

/-- A span is of a chunk, and ends where the chunks do or before. -/
theorem mem_spans {offset : Nat} {chunks : List (Nat × Bytes)} {w : Nat × Nat × Nat}
    (h : w ∈ spans offset chunks) : (∃ c ∈ chunks, c.1 = w.1) ∧ w.2.1 ≤ w.2.2 ∧
      w.2.2 ≤ offset + (chunks.flatMap Prod.snd).length := by
  induction chunks generalizing offset with
  | nil => cases h
  | cons c chunks ih =>
    obtain ⟨id, data⟩ := c
    rw [length_chunks_cons]
    rcases List.mem_cons.mp h with rfl | h
    · exact ⟨⟨_, List.mem_cons_self, rfl⟩, Nat.le_add_right _ _, by simp only; omega⟩
    · obtain ⟨⟨c, hc, hid⟩, hle, hend⟩ := ih h
      exact ⟨⟨c, List.mem_cons_of_mem _ hc, hid⟩, hle, by omega⟩

theorem map_spans (offset : Nat) (chunks : List (Nat × Bytes)) :
    (spans offset chunks).map Prod.fst = chunks.map Prod.fst := by
  induction chunks generalizing offset with
  | nil => rfl
  | cons c chunks ih => rw [spans, List.map_cons, ih, List.map_cons]

/-! ## A whole file -/

/-- A file of chunks before its checksum, behind a header. -/
def file (head : Bytes) (chunks : List (Nat × Bytes)) : Bytes :=
  head ++ (table (head.length + (chunks.length + 1) * 12) chunks ++ chunks.flatMap Prod.snd)

section File
variable {head digest : Bytes}

theorem length_file (head : Bytes) (chunks : List (Nat × Bytes)) : (file head chunks).length =
    head.length + (chunks.length + 1) * 12 + (chunks.flatMap Prod.snd).length := by
  rw [file, List.length_append, List.length_append, length_table, Nat.add_assoc]

/-- **The chunk table of a file is read.** -/
theorem readTable_file {truncated : Error} (hids : ∀ c ∈ chunks, c.1 < 2 ^ 32)
    (hlen : (file head chunks).length < 2 ^ 64) :
    readTable truncated (file head chunks ++ digest) (file head chunks).length
      (chunks.length + 1) head.length =
      .ok (rows (head.length + (chunks.length + 1) * 12) chunks) := by
  have hparts : file head chunks ++ digest =
      head ++ (table (head.length + (chunks.length + 1) * 12) chunks ++
        (chunks.flatMap Prod.snd ++ digest)) := by
    rw [file, List.append_assoc, List.append_assoc]
  rw [hparts]
  rw [length_file] at hlen ⊢
  exact readTable_table rfl hids hlen (Nat.le_add_right _ _)

/-- **A chunk of a file is cut out where its span says.** -/
theorem slice_span {w : Nat × Nat × Nat}
    (hw : w ∈ spans (head.length + (chunks.length + 1) * 12) chunks) :
    (w.1, slice (file head chunks ++ digest) w.2.1 (w.2.2 - w.2.1)) ∈ chunks := by
  have hspan : ∀ {pre post : List (Nat × Bytes)}, chunks = pre ++ post →
      w ∈ spans (head.length + (chunks.length + 1) * 12 + (pre.flatMap Prod.snd).length) post →
      (w.1, slice (file head chunks ++ digest) w.2.1 (w.2.2 - w.2.1)) ∈ post := by
    intro pre post hsplit hw
    induction post generalizing pre with
    | nil => cases hw
    | cons c post ih =>
      obtain ⟨id, d⟩ := c
      rcases List.mem_cons.mp hw with rfl | hw
      · have hfront : (head ++ table (head.length + (chunks.length + 1) * 12) chunks).length =
            head.length + (chunks.length + 1) * 12 := by
          rw [List.length_append, length_table]
        have hparts : file head chunks ++ digest =
          head ++ table (head.length + (chunks.length + 1) * 12) chunks ++
            ((pre ++ (id, d) :: post).flatMap Prod.snd ++ digest) := by
          rw [← hsplit, file]
          simp only [List.append_assoc]
        have hslice :=
          @slice_chunk (head ++ table (head.length + (chunks.length + 1) * 12) chunks) digest d id _
          pre post rfl
        rw [hfront] at hslice
        simp only [Nat.add_sub_cancel_left]
        rw [hparts, hslice]
        exact List.mem_cons_self
      · refine List.mem_cons_of_mem _
          (@ih (pre ++ [(id, d)]) (by rw [hsplit, List.append_assoc]; rfl) ?_)
        rw [List.flatMap_append, List.length_append, List.flatMap_singleton, ← Nat.add_assoc]
        exact hw
  exact @hspan [] chunks rfl (by rwa [List.flatMap_nil, List.length_nil, Nat.add_zero])

end File

end Puregit.ChunkFile
