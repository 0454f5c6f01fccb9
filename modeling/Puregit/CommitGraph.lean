import Puregit.ChunkFile
import Puregit.Graph
import Puregit.Lib.BinarySearch
import Puregit.Lib.Relaxation
import Puregit.Object.Canonical

/-! # The commit-graph

A table of commits, sorted by id, that names a commit's parents by their positions in it.  A row
holds the tree, two slots for parents, the generation and the date.  A commit of more than two
parents has its second and further ones in a chunk of their own, the last of them flagged, and the
second slot says where they start.  The generations are levels, computed by relaxation over the
rows in the order of the ids.  A slot without a parent is a number too, and the flag is a bit of the
word: both bound how many commits, and how many further parents, a graph can hold.
-/
namespace Puregit
open ObjectDatabase

/-- The signature of a commit-graph. -/
def commitGraphSignature : Bytes := bytes "CGPH"

namespace CommitGraph

/-- The fanout of the ids. -/
def chunkOidf : Nat := 0x4f494446

/-- The ids. -/
def chunkOidl : Nat := 0x4f49444c

/-- The rows. -/
def chunkCdat : Nat := 0x43444154

/-- The further parents of merges of more than two. -/
def chunkEdge : Nat := 0x45444745

/-- A slot without a parent. -/
def parentNone : Nat := 0x70000000

/-- In the second slot: the parents are in the chunk of further ones.  There: this is the last. -/
def edgeLast : Nat := 0x80000000

/-- Ids of which none is the same as the one before it. -/
def dedup : List ObjectId → List ObjectId
  | a :: b :: rest => if a = b then dedup (b :: rest) else a :: dedup (b :: rest)
  | ids => ids

/-- The ids of the commits in order, each once. -/
def sortIds (commits : List ObjectId) : List ObjectId :=
  dedup (commits.mergeSort fun a b => decide (a.bytes ≤ b.bytes))

/-- The position of every id. -/
def posOf (ids : List ObjectId) : BTreeMap Bytes Nat :=
  BTreeMap.ofList (ids.zipIdx.map fun p => (p.1.bytes, p.2 % 2 ^ 32))

/-- The position of a parent. -/
def positionIn (pos : BTreeMap Bytes Nat) (p : ObjectId) : Except Error Nat :=
  match pos.get? p.bytes with
  | some i => .ok i
  | none => .error (.pack (str "commit-graph: parent not in the set"))

/-- Reads the commits. -/
def readCommits {D : Type} [ObjectDatabase D] (odb : D) : List ObjectId → Except Error (List Commit)
  | [] => .ok []
  | id :: ids => do
    let (ty, payload) ← read odb id
    if ty ≠ .commit then .error (.pack (str "commit-graph: non-commit id supplied"))
    else do
      let commit ← Commit.parse (algo odb) payload
      let rest ← readCommits odb ids
      .ok (commit :: rest)

/-- The generation of a commit from those of its parents; `g` is what the ones before gave. -/
def generation (pos : BTreeMap Bytes Nat) (gens : List Nat) : List ObjectId → Nat → Except Error Nat
  | [], g => .ok g
  | p :: parents, g => do
    let pp ← positionIn pos p
    generation pos gens parents (max g (gens.getD pp 0 + 1))

/-- A pass over the commits from position `i` on, and whether it changed a generation. -/
def relaxPass (pos : BTreeMap Bytes Nat) :
    Nat → List Commit → List Nat → Except Error (List Nat × Bool)
  | _, [], gens => .ok (gens, false)
  | i, c :: commits, gens => do
    let g ← generation pos gens c.parents 1
    if gens[i]? = some g then relaxPass pos (i + 1) commits gens
    else do
      let (gens, _) ← relaxPass pos (i + 1) commits (gens.set i g)
      .ok (gens, true)

/-- Passes over the commits until one changes nothing, `rounds` of them at most. -/
def relax (pos : BTreeMap Bytes Nat) (commits : List Commit) :
    Nat → List Nat → Except Error (List Nat)
  | 0, _ => .error (.pack (str "commit-graph: parent cycle"))
  | rounds + 1, gens => do
    let (gens, changed) ← relaxPass pos 0 commits gens
    if changed then relax pos commits rounds gens else .ok gens

/-- The positions of some parents. -/
def positions (pos : BTreeMap Bytes Nat) : List ObjectId → Except Error (List Nat)
  | [] => .ok []
  | p :: parents => do
    let i ← positionIn pos p
    let rest ← positions pos parents
    .ok (i :: rest)

/-- The further parents of a merge, the last one flagged. -/
def edgeWords : List Nat → List Nat
  | [] => []
  | [i] => [i ||| edgeLast]
  | i :: rest => i :: edgeWords rest

/-- The two slots of a commit with parents at these positions, and what it adds to the further
parents, of which there are `edges`. -/
def slots (edges : Nat) : List Nat → Nat × Nat × List Nat
  | [] => (parentNone, parentNone, [])
  | [i] => (i, parentNone, [])
  | [i, j] => (i, j, [])
  | i :: rest => (i, edgeLast ||| edges % 2 ^ 32, edgeWords rest)

/-- The row of a commit. -/
def row (tree : ObjectId) (first second gen : Nat) (time : Int) : Bytes :=
  let date := time.toNat
  tree.bytes ++ (Sha.bigEndian 4 first ++ (Sha.bigEndian 4 second ++
    (Sha.bigEndian 4 ((gen &&& 0x3fffffff) <<< 2 ||| (date >>> 32 &&& 3)) ++
      Sha.bigEndian 4 (date &&& 0xffffffff))))

/-- The rows of commits with their generations, and the further parents, `edges` of which were
written before. -/
def cdatChunk (pos : BTreeMap Bytes Nat) :
    List (Commit × Nat) → Nat → Except Error (Bytes × List Nat)
  | [], _ => .ok ([], [])
  | c :: rest, edges => do
    let ps ← positions pos c.1.parents
    let (first, second, words) := slots edges ps
    let (cdat, edge) ← cdatChunk pos rest (edges + words.length)
    .ok (row c.1.tree first second c.2 c.1.committer.time ++ cdat, words ++ edge)

/-- How many ids have a first byte that is not greater, for every byte. -/
def oidfChunk (ids : List ObjectId) : Bytes :=
  (List.range 256).flatMap fun n => Sha.bigEndian 4 (ids.countP fun id =>
    (id.bytes.headD 0).toNat ≤ n)

/-- The chunks of a commit-graph; the one of further parents is there if there are some. -/
def chunks (ids : List ObjectId) (cdat edge : Bytes) : List (Nat × Bytes) :=
  [(chunkOidf, oidfChunk ids), (chunkOidl, ids.flatMap ObjectId.bytes), (chunkCdat, cdat)] ++
    if edge.isEmpty then [] else [(chunkEdge, edge)]

/-- The bytes before the chunk table. -/
def header (algo : HashAlgo) (numChunks : Nat) : Bytes :=
  commitGraphSignature ++ [1, if algo = .sha256 then 2 else 1, UInt8.ofNat numChunks, 0]

/-- A commit-graph before its checksum. -/
def body (algo : HashAlgo) (chunks : List (Nat × Bytes)) : Bytes :=
  header algo chunks.length ++
    (ChunkFile.table (8 + (chunks.length + 1) * 12) chunks ++ chunks.flatMap Prod.snd)

end CommitGraph
open CommitGraph

/-- The commit-graph of some commits. -/
def writeCommitGraph {D : Type} [ObjectDatabase D] (hasher : Hasher) (odb : D)
    (commits : List ObjectId) :
    Except Error Bytes := do
  let ids := sortIds commits
  let pos := posOf ids
  let parsed ← readCommits odb ids
  let gens ← relax pos parsed (ids.length + 1) (List.replicate ids.length 0)
  let (cdat, edge) ← cdatChunk pos (parsed.zip gens) 0
  let out := body (algo odb) (chunks ids cdat (edge.flatMap (Sha.bigEndian 4)))
  .ok (out ++ hasher.digest (algo odb) out)

/-- A parsed commit-graph: it has an id and a row for every commit. -/
structure CommitGraph where
  algo : HashAlgo
  oids : Bytes
  cdat : Bytes
  edge : Bytes
  count : Nat
  count_le : count * algo.rawLen ≤ oids.length
  cdat_length : cdat.length = count * (algo.rawLen + 16)

namespace CommitGraph

/-- Notes where every chunk is; all of them have to lie in the body. -/
def chunkMap (bodyLen : Nat) : List (Nat × Nat × Nat) → BTreeMap Nat (Nat × Nat) →
    Except Error (BTreeMap Nat (Nat × Nat))
  | [], m => .ok m
  | w :: windows, m =>
    if bodyLen < w.2.1 ∨ bodyLen < w.2.2 ∨ w.2.2 < w.2.1 then
      .error (.pack (str "commit-graph: bad chunk offsets"))
    else chunkMap bodyLen windows (m.insert w.1 w.2)

/-- The bytes of a chunk. -/
def chunkOf (data : Bytes) (m : BTreeMap Nat (Nat × Nat)) (id : Nat) : Option Bytes :=
  (m.get? id).map fun w => slice data w.1 (w.2 - w.1)

/-- Parses a commit-graph. -/
def parse (hasher : Hasher) (algo : HashAlgo) (data : Bytes) : Except Error CommitGraph :=
  if data.length < 8 + algo.rawLen ∨ data.take 4 ≠ commitGraphSignature then
    .error (.pack (str "commit-graph: bad header"))
  else if number data 4 1 ≠ 1 then .error (.unsupported (str "commit-graph: unsupported version"))
  else
    let bodyLen := data.length - algo.rawLen
    if hasher.digest algo (data.take bodyLen) ≠ data.drop bodyLen then
      .error (.pack (str "commit-graph: checksum mismatch"))
    else do
      let rows ← ChunkFile.readTable
        (.pack (str "commit-graph: truncated chunk table")) data bodyLen
        (number data 6 1 + 1) 8
      let m ← chunkMap bodyLen (ChunkFile.windows rows) BTreeMap.empty
      match chunkOf data m chunkOidl, chunkOf data m chunkCdat with
      | none, _ => .error (.pack (str "commit-graph: no OIDL chunk"))
      | some _, none => .error (.pack (str "commit-graph: no CDAT chunk"))
      | some oids, some cdat =>
        if h : oids.length / algo.rawLen * (algo.rawLen + 16) ≠ cdat.length then
          .error (.pack (str "commit-graph: OIDL/CDAT size mismatch"))
        else .ok {
          algo := algo
          oids := oids
          cdat := cdat
          edge := (chunkOf data m chunkEdge).getD []
          count := oids.length / algo.rawLen
          count_le := ChunkFile.count_le algo oids
          cdat_length := (not_not.mp h).symm }

variable (m : CommitGraph)

/-- The position of an id. -/
def positionOf (id : ObjectId) : Option Nat :=
  if id.algo ≠ m.algo then none
  else BinarySearch.search (fun i => slice m.oids (i * m.algo.rawLen) m.algo.rawLen) id.bytes
    m.count 0 m.count

/-- The id at a position. -/
def idAt (pos : Nat) : Option ObjectId :=
  if m.oids.length < pos * m.algo.rawLen + m.algo.rawLen then none
  else (ObjectId.fromBytes m.algo (slice m.oids (pos * m.algo.rawLen) m.algo.rawLen)).toOption

/-- The row at a position. -/
def record (pos : Nat) : Bytes := slice m.cdat (pos * (m.algo.rawLen + 16)) (m.algo.rawLen + 16)

/-- The tree of the commit at a position. -/
def treeAt (pos : Nat) : Option ObjectId :=
  (ObjectId.fromBytes m.algo ((m.record pos).take m.algo.rawLen)).toOption

/-- Further parents from a word on, up to the flagged one; `fuel` words at most. -/
def edgeParents : Nat → Nat → List ObjectId
  | 0, _ => []
  | fuel + 1, i =>
    if m.edge.length < i * 4 + 4 then []
    else
      let v := number m.edge (i * 4) 4
      (m.idAt (v % 2 ^ 31)).toList ++ if 2 ^ 31 ≤ v then [] else edgeParents fuel (i + 1)

/-- The parents of the commit at a position. -/
def parentsAt (pos : Nat) : List ObjectId :=
  let first := number (m.record pos) m.algo.rawLen 4
  if first = parentNone then []
  else
    let second := number (m.record pos) (m.algo.rawLen + 4) 4
    if second = parentNone then (m.idAt first).toList
    else if second < 2 ^ 31 then (m.idAt first).toList ++ (m.idAt second).toList
    else (m.idAt first).toList ++ m.edgeParents m.edge.length (second % 2 ^ 31)

/-- The generation of the commit at a position. -/
def generationAt (pos : Nat) : Nat := number (m.record pos) (m.algo.rawLen + 8) 4 >>> 2

/-- The date of the commit at a position. -/
def commitTimeAt (pos : Nat) : Nat :=
  (number (m.record pos) (m.algo.rawLen + 8) 4 &&& 3) <<< 32 ||| number (m.record pos)
    (m.algo.rawLen + 12) 4

variable {algo : HashAlgo} {ids : List ObjectId}

/-! ## The ids and their positions -/

/-- Sorted ids are in strict order once none is the same as the one before it. -/
theorem dedup_spec (halgo : ∀ id ∈ ids, id.algo = algo)
    (hsorted : ids.Pairwise fun a b => a.bytes ≤ b.bytes) :
    ((dedup ids).Pairwise fun a b => a.bytes < b.bytes) ∧ ∀ id, id ∈ dedup ids ↔ id ∈ ids := by
  induction ids using dedup.induct with
  | case1 a rest ih =>
    obtain ⟨hpairs, hmem⟩ := ih (List.forall_mem_cons.mp halgo).2 (List.pairwise_cons.mp hsorted).2
    rw [dedup, if_pos rfl]
    exact ⟨hpairs, fun id => by rw [hmem]; simp⟩
  | case2 a b rest hne ih =>
    obtain ⟨hfirst, hsorted⟩ := List.pairwise_cons.mp hsorted
    obtain ⟨ha, halgo⟩ := List.forall_mem_cons.mp halgo
    obtain ⟨hpairs, hmem⟩ := ih halgo hsorted
    rw [dedup, if_neg hne]
    refine ⟨List.pairwise_cons.mpr ⟨fun id hid => ?_, hpairs⟩, fun id => by
      rw [List.mem_cons, hmem, List.mem_cons (a := id) (b := a)]⟩
    -- below the next one, which is below all further ones
    have hab : a.bytes < b.bytes := lt_of_le_of_ne (hfirst b List.mem_cons_self) fun h =>
      hne (ObjectId.ext_bytes (ha.trans (halgo b List.mem_cons_self).symm) h)
    rcases List.mem_cons.mp ((hmem id).mp hid) with rfl | hrest
    · exact hab
    · exact hab.trans_le ((List.pairwise_cons.mp hsorted).1 id hrest)
  | case3 ids hshort =>
    cases ids with
    | nil => exact ⟨List.Pairwise.nil, fun _ => Iff.rfl⟩
    | cons a rest =>
      cases rest with
      | nil => exact ⟨List.pairwise_singleton _ _, fun _ => Iff.rfl⟩
      | cons b rest => exact absurd rfl (hshort a b rest)

/-- **The sorted ids are the commits, in strict order.** -/
theorem sortIds_spec {commits : List ObjectId} (halgo : ∀ id ∈ commits, id.algo = algo) :
    ((sortIds commits).Pairwise fun a b => a.bytes < b.bytes) ∧ ∀ id, id ∈ sortIds commits ↔
      id ∈ commits := by
  have hperm : (commits.mergeSort fun a b => decide (a.bytes ≤ b.bytes)).Perm commits :=
    List.mergeSort_perm _ _
  have hsorted : (commits.mergeSort fun a b => decide (a.bytes ≤ b.bytes)).Pairwise
      fun a b => a.bytes ≤ b.bytes := pairwise_mergeSort_key _ commits
  obtain ⟨hpairs, hmem⟩ := dedup_spec (fun id hid => halgo id (hperm.mem_iff.mp hid)) hsorted
  exact ⟨hpairs, fun id => (hmem id).trans hperm.mem_iff⟩

theorem nodup_of_pairwise (h : ids.Pairwise fun a b => a.bytes < b.bytes) : ids.Nodup :=
  h.imp fun hlt heq => absurd (heq ▸ hlt) (lt_irrefl _)

theorem sortIds_perm {commits : List ObjectId} (halgo : ∀ id ∈ commits, id.algo = algo) :
    (sortIds commits).Perm commits.dedup := by
  obtain ⟨hsorted, hmem⟩ := sortIds_spec halgo
  exact (List.perm_ext_iff_of_nodup (nodup_of_pairwise hsorted) (List.nodup_dedup _)).mpr fun id =>
    (hmem id).trans List.mem_dedup.symm

/-- The position of an id is found by its bytes. -/
theorem positionIn_posOf (hsorted : ids.Pairwise fun a b => a.bytes < b.bytes)
    (hcount : ids.length ≤ 2 ^ 32) {id : ObjectId} (hid : id ∈ ids) :
    positionIn (posOf ids) id = .ok (ids.idxOf id) := by
  have hkeys : ((ids.zipIdx.map fun p => (p.1.bytes, p.2 % 2 ^ 32)).map Prod.fst).Nodup := by
    rw [List.map_map]
    have hbytes : ids.zipIdx.map (Prod.fst ∘ fun p => (p.1.bytes, p.2 % 2 ^ 32)) =
        ids.map ObjectId.bytes := by
      rw [← List.zipIdx_map_fst 0 ids, List.map_map]
      simp only [List.zipIdx_map_fst]
      rfl
    rw [hbytes]
    exact List.pairwise_map.mpr (hsorted.imp fun h => ne_of_lt h)
  have hlt := List.idxOf_lt_length_iff.mpr hid
  have hget : (posOf ids).get? id.bytes = some (ids.idxOf id) := by
    refine (BTreeMap.get?_ofList hkeys).mpr (List.mem_map.mpr ⟨(id, ids.idxOf id), ?_, ?_⟩)
    · rw [List.mem_zipIdx_iff_getElem?, List.getElem?_idxOf hid]
    · rw [Nat.mod_eq_of_lt (by omega)]
  rw [positionIn, hget]

/-! ## The generations -/

section Generations
variable {pos : BTreeMap Bytes Nat}

/-- The positions of parents. -/
abbrev indices (ids parents : List ObjectId) : List Nat := parents.map ids.idxOf

theorem positions_eq (hpos : ∀ id ∈ ids, positionIn pos id = .ok (ids.idxOf id))
    {parents : List ObjectId} (hparents : ∀ p ∈ parents, p ∈ ids) :
    positions pos parents = .ok (indices ids parents) := by
  induction parents with
  | nil => rfl
  | cons p parents ih =>
    obtain ⟨hp, hparents⟩ := List.forall_mem_cons.mp hparents
    rw [positions, hpos p hp, ih hparents]
    rfl

theorem generation_eq (hpos : ∀ id ∈ ids, positionIn pos id = .ok (ids.idxOf id)) (gens : List Nat)
    {parents : List ObjectId} (hparents : ∀ p ∈ parents, p ∈ ids) (g : Nat) :
      generation pos gens parents g =
      .ok (((indices ids parents).map fun i => gens.getD i 0).foldl (fun g l =>
        max g (l + 1)) g) := by
  induction parents generalizing g with
  | nil => rfl
  | cons p parents ih =>
    obtain ⟨hp, hparents⟩ := List.forall_mem_cons.mp hparents
    rw [generation, hpos p hp]
    exact ih hparents _

/-- The passes over commits are those over the positions of their parents. -/
theorem relaxPass_eq (hpos : ∀ id ∈ ids, positionIn pos id = .ok (ids.idxOf id))
    {commits : List Commit} (hparents : ∀ c ∈ commits, ∀ p ∈ c.parents, p ∈ ids) (i : Nat)
    (gens : List Nat) :
    relaxPass pos i commits gens =
      .ok (Relaxation.pass i (commits.map fun c => indices ids c.parents) gens) := by
  induction commits generalizing i gens with
  | nil => rfl
  | cons c commits ih =>
    obtain ⟨hc, hparents⟩ := List.forall_mem_cons.mp hparents
    rw [relaxPass, generation_eq hpos gens hc, List.map_cons, Relaxation.pass]
    simp only [bind, Except.bind]
    unfold Relaxation.above
    split
    · rw [ih hparents]
    · rw [ih hparents]

theorem relax_eq (hpos : ∀ id ∈ ids, positionIn pos id = .ok (ids.idxOf id)) {commits : List Commit}
    (hparents : ∀ c ∈ commits, ∀ p ∈ c.parents, p ∈ ids) {rounds : Nat} {gens gens' : List Nat}
    (h : Relaxation.run (commits.map fun c => indices ids c.parents) rounds gens = some gens') :
    relax pos commits rounds gens = .ok gens' := by
  induction rounds generalizing gens with
  | zero => cases h
  | succ rounds ih =>
    rw [Relaxation.run] at h
    rw [relax, relaxPass_eq hpos hparents]
    simp only [bind, Except.bind] at h ⊢
    split at h
    · next hchanged =>
      rw [if_pos hchanged]
      exact ih h
    · next hchanged =>
      rw [if_neg hchanged]
      cases h
      rfl

end Generations

/-! ## Histories -/

/-- The ids in a commit are of the algorithm it is read with. -/
theorem algo_of_parse {payload : Bytes} {c : Commit} (h : Commit.parse algo payload = .ok c) :
    c.tree.algo = algo ∧ ∀ p ∈ c.parents, p.algo = algo := by
  unfold Commit.parse at h
  split at h
  · cases h
  split at h
  · cases h
  rename_i f hf
  -- every header line keeps the ids of the algorithm
  have hfields : (∀ id ∈ f.tree, id.algo = algo) ∧ ∀ p ∈ f.parents, p.algo = algo := by
    refine except_foldlM_inv (P := fun g : Commit.Header =>
      (∀ id ∈ g.tree, id.algo = algo) ∧ ∀ p ∈ g.parents, p.algo = algo) ?_ ⟨by simp, by simp⟩ hf
    intro g hg line _ g' hline
    unfold Commit.headerLine at hline
    split at hline
    · obtain ⟨id, hid, rfl⟩ := except_map_ok.mp hline
      refine ⟨fun id' hid' => ?_, hg.2⟩
      obtain rfl := Option.some.inj hid'
      exact Commit.parseHexOid_algo hid
    split at hline
    · obtain ⟨id, hid, rfl⟩ := except_map_ok.mp hline
      refine ⟨hg.1, fun p hp => ?_⟩
      rcases List.mem_append.mp hp with hp | hp
      · exact hg.2 p hp
      · rw [List.mem_singleton.mp hp]
        exact Commit.parseHexOid_algo hid
    split at hline
    · obtain ⟨s, -, rfl⟩ := except_map_ok.mp hline
      exact hg
    split at hline
    · obtain ⟨s, -, rfl⟩ := except_map_ok.mp hline
      exact hg
    cases hline
    exact hg
  unfold Commit.ofHeader at h
  split at h
  · cases h
  · cases h
  · cases h
  · rename_i tree author committer htree hauthor hcommitter
    cases h
    exact ⟨hfields.1 tree htree, hfields.2⟩

section History
variable {D : Type} [ObjectDatabase D] {odb : D} {commits : List ObjectId}

/-- Commits whose parents are among them. -/
def ParentClosed (odb : D) (commits : List ObjectId) : Prop :=
  ∀ id ∈ commits, id.algo = ObjectDatabase.algo odb ∧
    ∃ c, graph odb id = some (.commit c) ∧ ∀ p ∈ c.parents, p ∈ commits

/-- No commit is an ancestor of itself. -/
def Acyclic (odb : D) (commits : List ObjectId) : Prop :=
  ∀ id ∈ commits, ¬ Relation.TransGen (ObjectGraph.Parent (graph odb)) id id

/-- A generation is one more than the greatest of the parents, and 1 of a root. -/
def IsGeneration (odb : D) (commits : List ObjectId) (gen : ObjectId → Nat) : Prop :=
  ∀ id ∈ commits, ∀ c, graph odb id = some (.commit c) →
    gen id = (c.parents.map gen).foldr max 0 + 1

/-- **A history without cycles has generations.** -/
theorem exists_generation (hclosed : ParentClosed odb commits) (hacyclic : Acyclic odb commits) :
    ∃ gen, IsGeneration odb commits gen := by
  have hcommit : ∀ a : {id // id ∈ commits}, ∃ c, graph odb a.1 = some (.commit c) ∧
      ∀ p ∈ c.parents, p ∈ commits :=
    fun a => (hclosed a.1 a.2).2
  choose commit hgraph hparents using hcommit
  have hfinite : Finite {id // id ∈ commits} := List.finite_toSet commits
  have hcycle : ∀ a, ¬ Relation.TransGen
      (fun p a => p ∈ (commit a).parents.pmap (fun p hp => (⟨p, hp⟩ : {id // id ∈ commits}))
        (hparents a)) a a := by
    intro a htrans
    have hlift : Relation.TransGen (Function.swap (ObjectGraph.Parent (graph odb))) a.1 a.1 := by
      refine Relation.TransGen.lift Subtype.val ?_ a a htrans
      intro p b hp
      obtain ⟨q, hq, rfl⟩ := List.mem_pmap.mp hp
      exact ⟨commit b, hgraph b, hq⟩
    exact hacyclic a.1 a.2 (Relation.transGen_swap.mp hlift)
  obtain ⟨level, hlevel⟩ := Relaxation.exists_levels _ hcycle
  refine ⟨fun id => if h : id ∈ commits then level ⟨id, h⟩ else 0, fun id hid c hc => ?_⟩
  have hsame : c = commit ⟨id, hid⟩ := by
    have hobject := hc.symm.trans (hgraph ⟨id, hid⟩)
    cases hobject
    rfl
  simp only
  rw [dif_pos hid, hlevel, Relaxation.above_eq, List.map_pmap, hsame]
  refine congrArg (fun levels : List Nat => levels.foldr max 0 + 1) ?_
  rw [← List.pmap_eq_map (hparents ⟨id, hid⟩)]
  exact List.pmap_congr_left _ fun p hp hmem _ => by rw [dif_pos hmem]

theorem graph_commit {id : ObjectId} {c : Commit} (h : graph odb id = some (.commit c)) :
    ∃ payload, read odb id = .ok (.commit, payload) ∧
      Commit.parse (ObjectDatabase.algo odb) payload = .ok c := by
  obtain ⟨ty, payload, hread, hparse⟩ := graph_eq_some.mp h
  cases Object.objectType_parse hparse
  obtain ⟨c', hc', heq⟩ := except_map_ok.mp hparse
  cases heq
  exact ⟨payload, hread, hc'⟩

/-- The commits are read. -/
theorem readCommits_ok {ids : List ObjectId}
    (h : ∀ id ∈ ids, ∃ c, graph odb id = some (.commit c)) :
    ∃ parsed, readCommits odb ids = .ok parsed ∧
      List.Forall₂ (fun id c => graph odb id = some (.commit c)) ids parsed := by
  induction ids with
  | nil => exact ⟨[], rfl, .nil⟩
  | cons id ids ih =>
    obtain ⟨⟨c, hc⟩, h⟩ := List.forall_mem_cons.mp h
    obtain ⟨parsed, hrest, hparsed⟩ := ih h
    obtain ⟨payload, hread, hparse⟩ := graph_commit hc
    refine ⟨c :: parsed, ?_, .cons hc hparsed⟩
    rw [readCommits, hread, hrest]
    simp only [bind, Except.bind, hparse]
    rfl

/-- **The generations are the levels of the table.** -/
theorem levels_of_generation {ids : List ObjectId} {parsed : List Commit} {gen : ObjectId → Nat}
    (hparsed : List.Forall₂ (fun id c => graph odb id = some (.commit c)) ids parsed)
    (hparents : ∀ c ∈ parsed, ∀ p ∈ c.parents, p ∈ ids) (hgen : IsGeneration odb ids gen) :
    Relaxation.Levels (parsed.map fun c => indices ids c.parents) fun i =>
      (ids[i]?.map gen).getD 0 := by
  have hlen := hparsed.length_eq
  refine ⟨?_, fun i parents hi => ?_⟩
  · rw [List.forall_mem_map]
    intro c hc i hi
    obtain ⟨p, hp, rfl⟩ := List.mem_map.mp hi
    rw [List.length_map, ← hlen]
    exact List.idxOf_lt_length_iff.mpr (hparents c hc p hp)
  · rw [List.getElem?_map, Option.map_eq_some_iff] at hi
    obtain ⟨c, hc, rfl⟩ := hi
    have hlt := (List.getElem?_eq_some_iff.mp hc).1
    have hid : ids[i]? = some ids[i] := List.getElem?_eq_getElem (by omega)
    have hgraph : graph odb ids[i] = some (.commit c) := by
      have hget := (List.forall₂_iff_get.mp hparsed).2 i (by omega) hlt
      rw [(List.getElem?_eq_some_iff.mp hc).2.symm]
      exact hget
    rw [hid, Option.map_some, Option.getD_some, hgen ids[i] (List.getElem_mem _) c hgraph,
      ← Relaxation.above_eq, indices, List.map_map]
    refine congrArg Relaxation.above (List.map_congr_left fun p hp => ?_)
    rw [Function.comp_apply, List.getElem?_idxOf (hparents c (List.mem_of_getElem? hc) p hp)]
    rfl

end History

/-! ## The rows and the further parents -/

/-- How many parents of a commit are in the chunk of further ones. -/
def furtherParents (c : Commit) : Nat := if c.parents.length ≤ 2 then 0 else c.parents.length - 1

theorem length_edgeWords (is : List Nat) : (edgeWords is).length = is.length := by
  induction is using edgeWords.induct with
  | case1 => rfl
  | case2 i => rfl
  | case3 i rest hne ih => rw [edgeWords.eq_3 _ _ hne, List.length_cons, ih, List.length_cons]

/-- A flagged word is beyond the others. -/
theorem or_edgeLast {i : Nat} (hi : i < 2 ^ 31) : i ||| edgeLast = 2 ^ 31 + i := by
  rw [Nat.or_comm]
  exact (Nat.two_pow_add_eq_or_of_lt hi 1).symm

theorem edgeWords_lt {is : List Nat} (h : ∀ i ∈ is, i < 2 ^ 31) :
    ∀ w ∈ edgeWords is, w < 2 ^ 32 := by
  induction is using edgeWords.induct with
  | case1 => exact nofun
  | case2 i =>
    have hi := h i List.mem_cons_self
    intro w hw
    rw [edgeWords, List.mem_singleton] at hw
    rw [hw, or_edgeLast hi]
    omega
  | case3 i rest hne ih =>
    obtain ⟨hi, hrest⟩ := List.forall_mem_cons.mp h
    rw [edgeWords.eq_3 _ _ hne]
    exact List.forall_mem_cons.mpr ⟨by omega, ih hrest⟩

theorem length_row {tree : ObjectId} (htree : tree.algo = algo) (first second gen : Nat)
    (time : Int) :
    (row tree first second gen time).length = algo.rawLen + 16 := by
  rw [row]
  simp only [List.length_append, Sha.length_bigEndian, tree.length_eq, htree]

/-- The word of a generation and the high bits of a date. -/
theorem generation_word (gen date : Nat) :
    (gen &&& 0x3fffffff) <<< 2 ||| (date >>> 32 &&& 3) = gen % 2 ^ 30 * 4 + date / 2 ^ 32 % 4 := by
  have hgen : gen &&& 0x3fffffff = gen % 2 ^ 30 := Nat.and_two_pow_sub_one_eq_mod gen 30
  have hdate : date >>> 32 &&& 3 = date / 2 ^ 32 % 4 := by
    rw [Nat.shiftRight_eq_div_pow]
    exact Nat.and_two_pow_sub_one_eq_mod _ 2
  have hlt : date / 2 ^ 32 % 4 < 2 ^ 2 := Nat.mod_lt _ (by decide)
  rw [hgen, hdate, ← Nat.shiftLeft_add_eq_or_of_lt hlt, Nat.shiftLeft_eq]

/-- What a row is made of is read from it. -/
theorem row_fields {tree : ObjectId} (htree : tree.algo = algo) {first second : Nat}
    (hfirst : first < 2 ^ 32) (hsecond : second < 2 ^ 32) (gen : Nat) (time : Int) {r : Bytes}
    (hr : r = row tree first second gen time) :
    r.take algo.rawLen = tree.bytes ∧ number r algo.rawLen 4 = first ∧
      number r (algo.rawLen + 4) 4 = second ∧
      number r (algo.rawLen + 8) 4 = gen % 2 ^ 30 * 4 + time.toNat / 2 ^ 32 % 4 ∧
      number r (algo.rawLen + 12) 4 = time.toNat % 2 ^ 32 := by
  have hlen : tree.bytes.length = algo.rawLen := by rw [tree.length_eq, htree]
  have hdate : time.toNat &&& 0xffffffff = time.toNat % 2 ^ 32 :=
    Nat.and_two_pow_sub_one_eq_mod _ 32
  rw [row, generation_word, hdate] at hr
  have hword : gen % 2 ^ 30 * 4 + time.toNat / 2 ^ 32 % 4 < 256 ^ 4 := by omega
  have hlow : time.toNat % 2 ^ 32 < 256 ^ 4 := by omega
  refine ⟨?_, ?_, ?_, ?_, ?_⟩
  · rw [hr, ← hlen, List.take_left]
  · rw [hr]
    exact number_bigEndian_at hlen 4 hfirst _
  · rw [hr, ← List.append_assoc tree.bytes]
    refine number_bigEndian_at ?_ 4 hsecond _
    rw [List.length_append, Sha.length_bigEndian, hlen]
  · rw [hr, ← List.append_assoc tree.bytes,
      ← List.append_assoc (tree.bytes ++ Sha.bigEndian 4 first)]
    refine number_bigEndian_at ?_ 4 hword _
    simp only [List.length_append, Sha.length_bigEndian, hlen]
  · rw [hr, ← List.append_assoc tree.bytes,
      ← List.append_assoc (tree.bytes ++ Sha.bigEndian 4 first),
      ← List.append_assoc (tree.bytes ++ Sha.bigEndian 4 first ++ Sha.bigEndian 4 second),
      ← List.append_nil (Sha.bigEndian 4 (time.toNat % 2 ^ 32))]
    refine number_bigEndian_at ?_ 4 hlow _
    simp only [List.length_append, Sha.length_bigEndian, hlen]

theorem slots_length (edges : Nat) (c : Commit) :
    (slots edges (indices ids c.parents)).2.2.length = furtherParents c := by
  rw [furtherParents, indices]
  rcases c.parents with _ | ⟨p, _ | ⟨q, _ | ⟨r, rest⟩⟩⟩
  · rfl
  · rfl
  · rfl
  · rw [if_neg (by simp), List.map_cons, List.map_cons, List.map_cons, slots, length_edgeWords]
    · simp
    all_goals simp

/-- Words of a commit are numbers of 32 bits, if its parents are at positions of 31. -/
theorem slots_lt {is : List Nat} (h : ∀ i ∈ is, i < 2 ^ 31) (edges : Nat) :
    (slots edges is).1 < 2 ^ 32 ∧ (slots edges is).2.1 < 2 ^ 32 ∧ ∀ w ∈ (slots edges is).2.2,
      w < 2 ^ 32 := by
  rcases is with _ | ⟨i, _ | ⟨j, _ | ⟨k, rest⟩⟩⟩
  · exact ⟨show parentNone < 2 ^ 32 by decide, show parentNone < 2 ^ 32 by decide, nofun⟩
  · have hi := h i (by simp)
    exact ⟨by simp only [slots]; omega, show parentNone < 2 ^ 32 by decide, nofun⟩
  · have hi := h i (by simp)
    have hj := h j (by simp)
    exact ⟨by simp only [slots]; omega, by simp only [slots]; omega, nofun⟩
  · have hi := h i (by simp)
    rw [slots]
    · refine ⟨by simp only; omega, Nat.or_lt_two_pow (by decide) (Nat.mod_lt _ (by decide)), ?_⟩
      exact edgeWords_lt fun i hi => h i (List.mem_cons_of_mem _ hi)
    all_goals simp

/-- The rows of a table, and the further parents, commit after commit. -/
structure Rows (ids : List ObjectId) (rows : List (Commit × Nat)) (edges : Nat) (cdat : Bytes)
    (words : List Nat) (algo : HashAlgo) : Prop where
  length : cdat.length = rows.length * (algo.rawLen + 16)
  words_length : words.length = (rows.map fun r => furtherParents r.1).sum
  words_lt : ∀ w ∈ words, w < 2 ^ 32
  at_row : ∀ i r, rows[i]? = some r → ∃ pre post,
    words = pre ++ ((slots (edges + pre.length) (indices ids r.1.parents)).2.2 ++ post) ∧
      slice cdat (i * (algo.rawLen + 16)) (algo.rawLen + 16) =
        row r.1.tree (slots (edges + pre.length) (indices ids r.1.parents)).1
          (slots (edges + pre.length) (indices ids r.1.parents)).2.1 r.2 r.1.committer.time

theorem cdatChunk_ok {pos : BTreeMap Bytes Nat}
    (hpos : ∀ id ∈ ids, positionIn pos id = .ok (ids.idxOf id))
    (hcount : ids.length ≤ 2 ^ 31) {rows : List (Commit × Nat)}
    (hparents : ∀ r ∈ rows, ∀ p ∈ r.1.parents, p ∈ ids) (htree : ∀ r ∈ rows, r.1.tree.algo = algo)
    (edges : Nat) :
    ∃ cdat words, cdatChunk pos rows edges = .ok (cdat, words) ∧
      Rows ids rows edges cdat words algo := by
  induction rows generalizing edges with
  | nil =>
    refine ⟨[], [], rfl, ?_, rfl, nofun, nofun⟩
    rw [List.length_nil, List.length_nil, Nat.zero_mul]
  | cons c rows ih =>
    obtain ⟨hc, hparents⟩ := List.forall_mem_cons.mp hparents
    obtain ⟨hctree, htree⟩ := List.forall_mem_cons.mp htree
    obtain ⟨s, hs⟩ : ∃ s, s = slots edges (indices ids c.1.parents) := ⟨_, rfl⟩
    obtain ⟨cdat, words, hrest, hrows⟩ := ih hparents htree (edges + s.2.2.length)
    have hlen := length_row hctree s.1 s.2.1 c.2 c.1.committer.time
    have hidx : ∀ j ∈ indices ids c.1.parents, j < 2 ^ 31 := by
      rw [List.forall_mem_map]
      exact fun p hp => (List.idxOf_lt_length_iff.mpr (hc p hp)).trans_le hcount
    refine ⟨row c.1.tree s.1 s.2.1 c.2 c.1.committer.time ++ cdat, s.2.2 ++ words, ?_,
      ?_, ?_, ?_, ?_⟩
    · rw [cdatChunk, positions_eq hpos hc]
      simp only [bind, Except.bind, ← hs, hrest]
    · rw [List.length_append, hlen, hrows.length, List.length_cons]
      ring
    · rw [List.length_append, hrows.words_length, hs, slots_length, List.map_cons, List.sum_cons]
    · rw [hs]
      exact List.forall_mem_append.mpr ⟨(slots_lt hidx edges).2.2, hrows.words_lt⟩
    · intro i r hr
      cases i with
      | zero =>
        cases hr
        have hfront := slice_front (row c.1.tree s.1 s.2.1 c.2 c.1.committer.time) cdat
        rw [hlen] at hfront
        refine ⟨[], words, by rw [List.length_nil, Nat.add_zero, ← hs, List.nil_append], ?_⟩
        simp only [List.length_nil, Nat.add_zero, ← hs, Nat.zero_mul, hfront]
      | succ i =>
        obtain ⟨pre, post, hwords, hslice⟩ := hrows.at_row i r hr
        have hsum : edges + (s.2.2 ++ pre).length = edges + s.2.2.length + pre.length := by
          rw [List.length_append, Nat.add_assoc]
        have hskip := slice_append (row c.1.tree s.1 s.2.1 c.2 c.1.committer.time) cdat
          (i * (algo.rawLen + 16)) (algo.rawLen + 16)
        have hmul : (i + 1) * (algo.rawLen + 16) =
          algo.rawLen + 16 + i * (algo.rawLen + 16) := by ring
        rw [hlen, ← hmul] at hskip
        refine ⟨s.2.2 ++ pre, post, ?_, ?_⟩
        · rw [hsum, List.append_assoc, ← hwords]
        · rw [hsum, hskip, hslice]

/-! ## Looking a commit up -/

/-- The tables of a commit-graph are of these ids, rows and further parents. -/
structure Holds (m : CommitGraph) (algo : HashAlgo) (ids : List ObjectId) (cdat : Bytes)
    (words : List Nat) :
    Prop where
  algo : m.algo = algo
  oids : m.oids = ids.flatMap ObjectId.bytes
  count : m.count = ids.length
  cdat : m.cdat = cdat
  edge : m.edge = words.flatMap (Sha.bigEndian 4)

section Lookup
variable {m : CommitGraph} {cdat : Bytes} {words : List Nat}

theorem Holds.slice_id (hm : Holds m algo ids cdat words)
    (halgo : ∀ id ∈ ids, id.algo = algo) {i : Nat} {id : ObjectId} (hid : ids[i]? = some id) :
    slice m.oids (i * m.algo.rawLen) m.algo.rawLen = id.bytes := by
  have hlen : ∀ id ∈ ids, id.bytes.length = m.algo.rawLen := by
    intro id hid
    rw [id.length_eq, halgo id hid, hm.algo]
  have hslice := slice_table hlen hid []
  rwa [List.append_nil, ← hm.oids] at hslice

theorem Holds.positionOf (hm : Holds m algo ids cdat words) (halgo : ∀ id ∈ ids, id.algo = algo)
    (hsorted : ids.Pairwise fun a b => a.bytes < b.bytes) {i : Nat} {id : ObjectId}
    (hid : ids[i]? = some id) :
    m.positionOf id = some i := by
  have hlt := (List.getElem?_eq_some_iff.mp hid).1
  rw [CommitGraph.positionOf,
    if_neg (not_not.mpr ((halgo id (List.mem_of_getElem? hid)).trans hm.algo.symm))]
  refine BinarySearch.search_complete ?_ (Nat.zero_le i) (by rwa [hm.count]) (hm.slice_id halgo hid)
    (Nat.sub_le _ _)
  intro a b hab hb
  rw [hm.count] at hb
  have ha : a < ids.length := hab.trans hb
  simp only [hm.slice_id halgo (List.getElem?_eq_getElem ha),
    hm.slice_id halgo (List.getElem?_eq_getElem hb)]
  exact List.pairwise_iff_getElem.mp hsorted a b ha hb hab

theorem Holds.idAt (hm : Holds m algo ids cdat words) (halgo : ∀ id ∈ ids, id.algo = algo) {i : Nat}
    {id : ObjectId} (hid : ids[i]? = some id) : m.idAt i = some id := by
  have hlt := (List.getElem?_eq_some_iff.mp hid).1
  have hinside : i * m.algo.rawLen + m.algo.rawLen ≤ m.oids.length := by
    have hrow : (i + 1) * m.algo.rawLen ≤ m.count * m.algo.rawLen :=
      Nat.mul_le_mul_right _ (by rwa [hm.count])
    rw [Nat.succ_mul] at hrow
    exact hrow.trans m.count_le
  have halgoId : m.algo = id.algo := hm.algo.trans (halgo id (List.mem_of_getElem? hid)).symm
  rw [CommitGraph.idAt, if_neg (by omega), hm.slice_id halgo hid, halgoId, ObjectId.fromBytes,
    dif_pos id.length_eq]
  rfl

theorem Holds.idAt_idxOf (hm : Holds m algo ids cdat words) (halgo : ∀ id ∈ ids, id.algo = algo)
    {p : ObjectId} (hp : p ∈ ids) : (m.idAt (ids.idxOf p)).toList = [p] := by
  rw [hm.idAt halgo (List.getElem?_idxOf hp)]
  rfl

/-- **The further parents are read back**: from where they start up to the flagged one. -/
theorem Holds.edgeParents (hm : Holds m algo ids cdat words) (halgo : ∀ id ∈ ids, id.algo = algo)
    (hcount : ids.length ≤ 2 ^ 31) (hwords : ∀ w ∈ words, w < 2 ^ 32) {pre post : List Nat}
    {parents : List ObjectId} (hparents : ∀ p ∈ parents, p ∈ ids)
    (hsplit : words = pre ++ (edgeWords (indices ids parents) ++ post)) {fuel : Nat}
    (hfuel : parents.length ≤ fuel) (hne : parents ≠ []) :
    m.edgeParents fuel pre.length = parents := by
  induction parents generalizing pre fuel with
  | nil => exact absurd rfl hne
  | cons p parents ih =>
    obtain ⟨hp, hparents⟩ := List.forall_mem_cons.mp hparents
    have hidx : ids.idxOf p < 2 ^ 31 := (List.idxOf_lt_length_iff.mpr hp).trans_le hcount
    obtain ⟨fuel, rfl⟩ : ∃ f, fuel = f + 1 := ⟨fuel - 1, by rw [List.length_cons] at hfuel; omega⟩
    -- the word at the start
    have hword : ∀ {w : Nat} {rest : List Nat}, words = pre ++ w :: rest →
        ¬ m.edge.length < pre.length * 4 + 4 ∧ number m.edge (pre.length * 4) 4 = w := by
      intro w rest hw
      have hget : words[pre.length]? = some w := by
        rw [hw, List.getElem?_append_right (Nat.le_refl _), Nat.sub_self, List.getElem?_cons_zero]
      have hread := number_table (k := 4) (f := id) (fun w hw => hwords w hw) hget []
      rw [List.append_nil] at hread
      have hlen : m.edge.length = words.length * 4 := by
        rw [hm.edge]
        exact length_table 4 id words
      have hlt := (List.getElem?_eq_some_iff.mp hget).1
      rw [hm.edge]
      exact ⟨by rw [← hm.edge, hlen]; omega, hread⟩
    cases parents with
    | nil =>
      obtain ⟨hinside, hread⟩ := hword hsplit
      rw [or_edgeLast hidx] at hread
      have hmod : (2 ^ 31 + ids.idxOf p) % 2 ^ 31 = ids.idxOf p := by omega
      rw [CommitGraph.edgeParents, if_neg hinside]
      simp only [hread]
      rw [hmod, if_pos (by omega), hm.idAt_idxOf halgo hp, List.append_nil]
    | cons q parents =>
      have hrest : words = pre ++ ids.idxOf p :: (edgeWords (indices ids (q :: parents)) ++ post) :=
        hsplit
      obtain ⟨hinside, hread⟩ := hword hrest
      have hlater : words = (pre ++ [ids.idxOf p]) ++
          (edgeWords (indices ids (q :: parents)) ++ post) := by
        rw [List.append_assoc, List.singleton_append, hrest]
      have hnext := ih hparents hlater (Nat.le_of_succ_le_succ hfuel) (List.cons_ne_nil _ _)
      rw [List.length_append, List.length_singleton] at hnext
      rw [CommitGraph.edgeParents, if_neg hinside]
      simp only [hread]
      rw [Nat.mod_eq_of_lt hidx, if_neg (by omega), hm.idAt_idxOf halgo hp, hnext,
        List.singleton_append]

end Lookup

section Commits
variable {m : CommitGraph} {cdat : Bytes} {words : List Nat} {rows : List (Commit × Nat)} {i : Nat}
  {r : Commit × Nat}

/-- What the row of a commit holds. -/
theorem Holds.record_fields (hm : Holds m algo ids cdat words)
    (hrows : Rows ids rows 0 cdat words algo) (hcount : ids.length ≤ 2 ^ 31)
    (hr : rows[i]? = some r) (hparents : ∀ p ∈ r.1.parents, p ∈ ids)
    (htree : r.1.tree.algo = algo) : ∃ pre post s, s = slots pre.length (indices ids r.1.parents) ∧
      words = pre ++ (s.2.2 ++ post) ∧ (m.record i).take m.algo.rawLen = r.1.tree.bytes ∧
      number (m.record i) m.algo.rawLen 4 = s.1 ∧
        number (m.record i) (m.algo.rawLen + 4) 4 = s.2.1 ∧
      number (m.record i) (m.algo.rawLen + 8) 4 =
        r.2 % 2 ^ 30 * 4 + r.1.committer.time.toNat / 2 ^ 32 % 4 ∧
      number (m.record i) (m.algo.rawLen + 12) 4 = r.1.committer.time.toNat % 2 ^ 32 := by
  obtain ⟨pre, post, hwords, hslice⟩ := hrows.at_row i r hr
  rw [Nat.zero_add] at hwords hslice
  have hidx : ∀ j ∈ indices ids r.1.parents, j < 2 ^ 31 := by
    rw [List.forall_mem_map]
    exact fun p hp => (List.idxOf_lt_length_iff.mpr (hparents p hp)).trans_le hcount
  obtain ⟨hfirst, hsecond, -⟩ := slots_lt hidx pre.length
  have hrecord : m.record i = slice cdat (i * (algo.rawLen + 16)) (algo.rawLen + 16) := by
    rw [CommitGraph.record, hm.cdat, hm.algo]
  rw [hm.algo]
  exact ⟨pre, post, _, rfl, hwords, row_fields htree hfirst hsecond _ _ (hrecord.trans hslice)⟩

/-- **The tree, the generation and the date are read back.** -/
theorem Holds.values (hm : Holds m algo ids cdat words) (hrows : Rows ids rows 0 cdat words algo)
    (hcount : ids.length ≤ 2 ^ 31) (hr : rows[i]? = some r) (hparents : ∀ p ∈ r.1.parents, p ∈ ids)
    (htree : r.1.tree.algo = algo) : m.treeAt i = some r.1.tree ∧ m.generationAt i = r.2 % 2 ^ 30 ∧
      m.commitTimeAt i = r.1.committer.time.toNat % 2 ^ 34 := by
  obtain ⟨pre, post, s, -, -, htreeBytes, -, -, hword, hlow⟩ :=
    hm.record_fields hrows hcount hr hparents htree
  refine ⟨?_, ?_, ?_⟩
  · have halgo : m.algo = r.1.tree.algo := hm.algo.trans htree.symm
    rw [treeAt, htreeBytes, halgo, ObjectId.fromBytes, dif_pos r.1.tree.length_eq]
    rfl
  · rw [generationAt, hword, Nat.shiftRight_eq_div_pow]
    omega
  · have hbits : (r.2 % 2 ^ 30 * 4 + r.1.committer.time.toNat / 2 ^ 32 % 4) &&& 3 =
        r.1.committer.time.toNat / 2 ^ 32 % 4 := by
      have hand : (r.2 % 2 ^ 30 * 4 + r.1.committer.time.toNat / 2 ^ 32 % 4) &&& 3 =
          (r.2 % 2 ^ 30 * 4 + r.1.committer.time.toNat / 2 ^ 32 % 4) % 4 :=
            Nat.and_two_pow_sub_one_eq_mod _ 2
      omega
    have hlt : r.1.committer.time.toNat % 2 ^ 32 < 2 ^ 32 := Nat.mod_lt _ (by decide)
    rw [commitTimeAt, hword, hlow, hbits, ← Nat.shiftLeft_add_eq_or_of_lt hlt, Nat.shiftLeft_eq]
    omega

/-- **The parents are read back**, in order, as long as no position is that of a slot without
one. -/
theorem Holds.parents (hm : Holds m algo ids cdat words) (hrows : Rows ids rows 0 cdat words algo)
    (hcount : ids.length ≤ parentNone) (hfurther : words.length ≤ 2 ^ 31)
    (halgo : ∀ id ∈ ids, id.algo = algo) (hr : rows[i]? = some r)
    (hparents : ∀ p ∈ r.1.parents, p ∈ ids) (htree : r.1.tree.algo = algo) :
    m.parentsAt i = r.1.parents := by
  have hsmall : parentNone ≤ 2 ^ 31 := by decide
  obtain ⟨pre, post, s, hs, hsplit, -, hfirst, hsecond, -⟩ :=
    hm.record_fields hrows (hcount.trans hsmall) hr hparents htree
  have hidx : ∀ p ∈ r.1.parents, ids.idxOf p < parentNone := fun p hp =>
    (List.idxOf_lt_length_iff.mpr (hparents p hp)).trans_le hcount
  rw [parentsAt, hfirst, hsecond, hs]
  rw [hs] at hsplit
  rcases hlist : r.1.parents with _ | ⟨p, _ | ⟨q, _ | ⟨t, rest⟩⟩⟩
  · exact if_pos rfl
  · rw [hlist] at hparents hidx
    have hp := hidx p (by simp)
    simp only [indices, List.map_cons, List.map_nil, slots]
    rw [if_neg (by omega), if_pos trivial, hm.idAt_idxOf halgo (hparents p (by simp))]
  · rw [hlist] at hparents hidx
    have hp := hidx p (by simp)
    have hq := hidx q (by simp)
    simp only [indices, List.map_cons, List.map_nil, slots]
    rw [if_neg (by omega), if_neg (by omega), if_pos (by omega),
      hm.idAt_idxOf halgo (hparents p (by simp)),
      hm.idAt_idxOf halgo (hparents q (by simp)), List.singleton_append]
  · rw [hlist] at hparents hidx hsplit
    have hp := hidx p (by simp)
    have hslots : slots pre.length (indices ids (p :: q :: t :: rest)) =
        (ids.idxOf p, edgeLast ||| pre.length % 2 ^ 32, edgeWords (indices ids (q :: t :: rest))) :=
          rfl
    rw [hslots] at hsplit ⊢
    have hlen := congrArg List.length hsplit
    simp only [List.length_append, length_edgeWords, List.length_map, List.length_cons] at hlen
    -- where they start, behind the flag
    have hstart : edgeLast ||| pre.length % 2 ^ 32 = 2 ^ 31 + pre.length := by
      rw [Nat.mod_eq_of_lt (by omega), Nat.or_comm, or_edgeLast (by omega)]
    have hedge : m.edge.length = words.length * 4 := by
      rw [hm.edge]
      exact length_table 4 id words
    have hnone : parentNone < 2 ^ 31 := by decide
    have hback : (2 ^ 31 + pre.length) % 2 ^ 31 = pre.length := by omega
    have hfuel : (q :: t :: rest).length ≤ m.edge.length := by
      simp only [List.length_cons]
      omega
    have hread := hm.edgeParents halgo (hcount.trans hsmall) hrows.words_lt
      (List.forall_mem_cons.mp hparents).2 hsplit
      hfuel (List.cons_ne_nil _ _)
    simp only [hstart]
    rw [if_neg (by omega), if_neg (by omega), if_neg (by omega), hback, hread,
      hm.idAt_idxOf halgo (hparents p (by simp)), List.singleton_append]

end Commits

/-! ## Writing and parsing -/

theorem chunkMap_eq {bodyLen : Nat} {windows : List (Nat × Nat × Nat)}
    (h : ∀ w ∈ windows, w.2.1 ≤ w.2.2 ∧ w.2.2 ≤ bodyLen) (map : BTreeMap Nat (Nat × Nat)) :
    chunkMap bodyLen windows map = .ok (windows.foldl (fun map w => map.insert w.1 w.2) map) := by
  induction windows generalizing map with
  | nil => rfl
  | cons w windows ih =>
    obtain ⟨hw, h⟩ := List.forall_mem_cons.mp h
    rw [chunkMap, if_neg (by omega), ih h, List.foldl_cons]

/-- The chunks of a file are found by their ids. -/
theorem chunkOf_file {head digest : Bytes} {chunks : List (Nat × Bytes)}
    (hnodup : (chunks.map Prod.fst).Nodup) {map : BTreeMap Nat (Nat × Nat)}
    (hmap : map = (ChunkFile.spans (head.length + (chunks.length + 1) * 12) chunks).foldl
      (fun map w => map.insert w.1 w.2) BTreeMap.empty) :
    (∀ id d, (id, d) ∈ chunks → chunkOf (ChunkFile.file head chunks ++ digest) map id = some d) ∧
      ∀ id, (∀ c ∈ chunks, c.1 ≠ id) →
        chunkOf (ChunkFile.file head chunks ++ digest) map id = none := by
  obtain ⟨spans, hspans⟩ : ∃ spans, spans =
      ChunkFile.spans (head.length + (chunks.length + 1) * 12) chunks :=
    ⟨_, rfl⟩
  have hkeys : spans.map Prod.fst = chunks.map Prod.fst := by rw [hspans, ChunkFile.map_spans]
  have hget : ∀ id w, map.get? id = some w ↔ (id, w) ∈ spans := by
    intro id w
    rw [hmap, ← hspans, BTreeMap.get?_foldl_insert (by rwa [hkeys]), BTreeMap.get?_empty]
    simp
  constructor
  · intro id d hd
    have hid : id ∈ spans.map Prod.fst := by
      rw [hkeys]
      exact List.mem_map_of_mem hd
    obtain ⟨w, hw, rfl⟩ := List.mem_map.mp hid
    have hchunk := @ChunkFile.slice_span chunks head digest w (hspans ▸ hw)
    have hsame := List.inj_on_of_nodup_map hnodup hchunk hd rfl
    rw [chunkOf, (hget w.1 w.2).mpr hw, Option.map_some]
    exact congrArg some (congrArg Prod.snd hsame)
  · intro id hid
    rw [chunkOf, Option.map_eq_none_iff, Option.eq_none_iff_forall_ne_some]
    intro w hw
    have hmem := List.mem_map_of_mem (f := Prod.fst) ((hget id w).mp hw)
    rw [hkeys] at hmem
    obtain ⟨c, hc, heq⟩ := List.mem_map.mp hmem
    exact hid c hc heq

theorem length_ids (halgo : ∀ id ∈ ids, id.algo = algo) :
    (ids.flatMap ObjectId.bytes).length = ids.length * algo.rawLen := by
  induction ids with
  | nil => rw [List.flatMap_nil, List.length_nil, List.length_nil, Nat.zero_mul]
  | cons id ids ih =>
    obtain ⟨hid, hids⟩ := List.forall_mem_cons.mp halgo
    rw [List.flatMap_cons, List.length_append, ih hids, id.length_eq, hid, List.length_cons]
    ring

/-- The chunks have ids of their own, and there are three or four. -/
theorem chunks_spec (ids : List ObjectId) (cdat edge : Bytes) :
    (∀ c ∈ chunks ids cdat edge, c.1 < 2 ^ 32) ∧ (chunks ids cdat edge).length < 256 ∧
      ((chunks ids cdat edge).map Prod.fst).Nodup := by
  unfold chunks
  split <;> simp [chunkOidf, chunkOidl, chunkCdat, chunkEdge]

/-- **What was written is parsed**, if it is not as long as no file is. -/
theorem parse_body (hasher : Hasher) {cdat : Bytes} {words : List Nat}
    (halgo : ∀ id ∈ ids, id.algo = algo)
    (hcdat : cdat.length = ids.length * (algo.rawLen + 16)) {out : Bytes}
    (hout : out = body algo (chunks ids cdat (words.flatMap (Sha.bigEndian 4))))
    (hlen : out.length < 2 ^ 64) :
    ∃ m, parse hasher algo (out ++ hasher.digest algo out) = .ok m ∧
      Holds m algo ids cdat words := by
  obtain ⟨edge, hedge⟩ : ∃ edge, edge = words.flatMap (Sha.bigEndian 4) := ⟨_, rfl⟩
  obtain ⟨hids, hcount, hnodup⟩ := chunks_spec ids cdat edge
  obtain ⟨cs, hcs⟩ : ∃ cs, cs = chunks ids cdat edge := ⟨_, rfl⟩
  obtain ⟨head, hhead⟩ : ∃ head, head = header algo cs.length := ⟨_, rfl⟩
  have hheadLen : head.length = 8 := by
    rw [hhead]
    rfl
  obtain ⟨digest, hdigest⟩ : ∃ d, d = hasher.digest algo out := ⟨_, rfl⟩
  have hdigestLen : digest.length = algo.rawLen := hdigest ▸ hasher.digest_length algo _
  rw [← hcs] at hids hcount hnodup
  have hfile : out = ChunkFile.file head cs := by
    rw [hout, ← hedge, ← hcs, body, ChunkFile.file, hheadLen, hhead]
  rw [← hdigest]
  -- the parts of the file, as the parser meets them
  obtain ⟨data, hdata⟩ : ∃ data, data = out ++ digest := ⟨_, rfl⟩
  have hhead8 : ∃ rest, data = header algo cs.length ++ rest := by
    rw [hdata, hfile, ChunkFile.file, ← hhead, List.append_assoc]
    exact ⟨_, rfl⟩
  obtain ⟨rest, hrest⟩ := hhead8
  have hsig : data.take 4 = commitGraphSignature := by
    rw [hrest]
    rfl
  have hversion : number data 4 1 = 1 := by
    rw [hrest]
    rfl
  have hnumber : number data 6 1 = cs.length := by
    have hread : number data 6 1 = ObjectId.natOfBytes [UInt8.ofNat cs.length] := by
      rw [hrest]
      rfl
    have hbyte : ObjectId.natOfBytes [UInt8.ofNat cs.length] =
      0 * 256 + (UInt8.ofNat cs.length).toNat := rfl
    rw [hread, hbyte, UInt8.toNat_ofNat_of_lt' (show cs.length < 256 from hcount)]
    omega
  have hdataLen : data.length - algo.rawLen = out.length := by
    rw [hdata, List.length_append, hdigestLen, Nat.add_sub_cancel]
  have htake : data.take out.length = out := by rw [hdata, List.take_left]
  have hdrop : data.drop out.length = digest := by rw [hdata, List.drop_left]
  have hrows := @ChunkFile.readTable_file cs head digest
    (.pack (str "commit-graph: truncated chunk table")) hids
    (by rwa [← hfile])
  rw [← hfile, ← hdata, hheadLen] at hrows
  have hmap : chunkMap out.length (ChunkFile.windows (ChunkFile.rows (8 + (cs.length + 1) * 12) cs))
      BTreeMap.empty = .ok ((ChunkFile.spans (8 + (cs.length + 1) * 12) cs).foldl
        (fun map w => map.insert w.1 w.2) BTreeMap.empty) := by
    rw [ChunkFile.windows_rows]
    refine chunkMap_eq (fun w hw => ?_) _
    have hinside := (ChunkFile.mem_spans hw).2
    rw [hfile, ChunkFile.length_file, hheadLen]
    exact hinside
  -- the chunks it looks for
  obtain ⟨hfound, hnone⟩ := @chunkOf_file head digest cs hnodup _ rfl
  rw [← hfile, ← hdata, hheadLen] at hfound hnone
  have hoidl := hfound chunkOidl (ids.flatMap ObjectId.bytes) (by rw [hcs, chunks]; simp)
  have hcdatChunk := hfound chunkCdat cdat (by rw [hcs, chunks]; simp)
  have hedgeChunk : (chunkOf data ((ChunkFile.spans (8 + (cs.length + 1) * 12) cs).foldl
      (fun map w => map.insert w.1 w.2) BTreeMap.empty) chunkEdge).getD [] = edge := by
    by_cases hempty : edge.isEmpty = true
    · rw [hnone chunkEdge, List.isEmpty_iff.mp hempty]
      · rfl
      · rw [hcs, chunks, if_pos hempty]
        simp [chunkOidf, chunkOidl, chunkCdat, chunkEdge]
    · rw [hfound chunkEdge edge]
      · rfl
      · rw [hcs, chunks, if_neg hempty]
        simp
  have hpos : 0 < algo.rawLen := by cases algo <;> decide
  have hcountIds : (ids.flatMap ObjectId.bytes).length / algo.rawLen = ids.length := by
    rw [length_ids halgo, Nat.mul_div_cancel _ hpos]
  rw [← hdata, parse, if_neg, if_neg (not_not.mpr hversion)]
  · simp only [hdataLen, htake, hdrop, hnumber]
    rw [if_neg (not_not.mpr hdigest.symm)]
    simp only [hrows, bind, Except.bind, hmap, hoidl, hcdatChunk]
    rw [dif_neg (not_not.mpr (by rw [hcountIds, hcdat]))]
    exact ⟨_, rfl, rfl, rfl, hcountIds, rfl, hedgeChunk.trans hedge⟩
  · rintro (hshort | hne)
    · rw [hdata, List.length_append, hdigestLen, hfile, ChunkFile.length_file, hheadLen] at hshort
      omega
    · exact hne hsig

section Written
variable {D : Type} [ObjectDatabase D] {odb : D} {commits : List ObjectId}

/-- How many parents of an object are in the chunk of further ones. -/
def furtherOf (odb : D) (id : ObjectId) : Nat :=
  match graph odb id with
  | some (.commit c) => furtherParents c
  | _ => 0

/-- The commits of some ids with these generations. -/
def RowsOf (odb : D) (ids : List ObjectId) (gen : ObjectId → Nat)
    (rows : List (Commit × Nat)) : Prop :=
  List.Forall₂ (fun id r => graph odb id = some (.commit r.1) ∧ r.2 = gen id) ids rows

theorem RowsOf.at_row {ids : List ObjectId} {gen : ObjectId → Nat} {rows : List (Commit × Nat)}
    (h : RowsOf odb ids gen rows) {i : Nat} {id : ObjectId} (hid : ids[i]? = some id) :
    ∃ r, rows[i]? = some r ∧ graph odb id = some (.commit r.1) ∧ r.2 = gen id := by
  have hlt := (List.getElem?_eq_some_iff.mp hid).1
  have hlt' : i < rows.length := by rwa [← h.length_eq]
  have hget := (List.forall₂_iff_get.mp h).2 i hlt hlt'
  rw [List.get_eq_getElem, List.get_eq_getElem, (List.getElem?_eq_some_iff.mp hid).2] at hget
  exact ⟨rows[i], List.getElem?_eq_getElem hlt', hget⟩

theorem sum_furtherParents {ids : List ObjectId} {gen : ObjectId → Nat} {rows : List (Commit × Nat)}
    (h : RowsOf odb ids gen rows) :
    (rows.map fun r => furtherParents r.1).sum = (ids.map (furtherOf odb)).sum := by
  induction h with
  | nil => rfl
  | cons hr _ ih => rw [List.map_cons, List.sum_cons, ih, List.map_cons, List.sum_cons,
    furtherOf, hr.1]

/-- The commits and their levels are zipped. -/
theorem rowsOf_zip {ids : List ObjectId} {parsed : List Commit} {gens : List Nat}
    {gen : ObjectId → Nat}
    (hparsed : List.Forall₂ (fun id c => graph odb id = some (.commit c)) ids parsed)
    (hgens : ∀ (i : Nat) (id : ObjectId), ids[i]? = some id → gens[i]? = some (gen id)) :
    RowsOf odb ids gen (parsed.zip gens) := by
  induction hparsed generalizing gens with
  | nil => exact .nil
  | @cons id c ids parsed hc hparsed ih =>
    have hfirst := hgens 0 id rfl
    obtain ⟨g, gens, rfl⟩ : ∃ g gens', gens = g :: gens' := by
      cases gens with
      | nil => cases hfirst
      | cons g gens => exact ⟨g, gens, rfl⟩
    cases hfirst
    exact .cons ⟨hc, rfl⟩ (ih fun i id hid => hgens (i + 1) id hid)

/-- **Writing never meets a cycle**: it finds the generations of the commits and writes their
rows. -/
theorem write_ok (hasher : Hasher) (hclosed : ParentClosed odb commits)
    (hacyclic : Acyclic odb commits) (hcount : (sortIds commits).length ≤ 2 ^ 31) :
      ∃ gen rows cdat words, IsGeneration odb commits gen ∧
      RowsOf odb (sortIds commits) gen rows ∧
        Rows (sortIds commits) rows 0 cdat words (ObjectDatabase.algo odb) ∧
      writeCommitGraph hasher odb commits =
        .ok (body (ObjectDatabase.algo odb)
          (chunks (sortIds commits) cdat (words.flatMap (Sha.bigEndian 4))) ++
          hasher.digest (ObjectDatabase.algo odb)
            (body (ObjectDatabase.algo odb)
              (chunks (sortIds commits) cdat (words.flatMap (Sha.bigEndian 4))))) := by
  obtain ⟨hsorted, hmem⟩ := sortIds_spec fun id hid => (hclosed id hid).1
  obtain ⟨ids, hids⟩ : ∃ ids, ids = sortIds commits := ⟨_, rfl⟩
  rw [← hids] at hsorted hmem hcount ⊢
  obtain ⟨gen, hgen⟩ := exists_generation hclosed hacyclic
  obtain ⟨parsed, hread, hparsed⟩ := @readCommits_ok D _ odb ids fun id hid => by
    obtain ⟨-, c, hc, -⟩ := hclosed id ((hmem id).mp hid)
    exact ⟨c, hc⟩
  have hpos : ∀ id ∈ ids, positionIn (posOf ids) id = .ok (ids.idxOf id) := fun id hid =>
    positionIn_posOf hsorted (hcount.trans (by decide)) hid
  -- a commit that was read is one of the set
  have hset : ∀ c ∈ parsed, (∀ p ∈ c.parents, p ∈ ids) ∧ c.tree.algo = ObjectDatabase.algo odb := by
    intro c hc
    obtain ⟨i, hi⟩ := List.mem_iff_getElem?.mp hc
    have hlt := (List.getElem?_eq_some_iff.mp hi).1
    have hlt' : i < ids.length := by rwa [hparsed.length_eq]
    have hgraph := (List.forall₂_iff_get.mp hparsed).2 i hlt' hlt
    rw [List.get_eq_getElem, List.get_eq_getElem, (List.getElem?_eq_some_iff.mp hi).2] at hgraph
    obtain ⟨-, c', hc', hparents⟩ := hclosed _ ((hmem _).mp (List.getElem_mem hlt'))
    cases hgraph.symm.trans hc'
    obtain ⟨payload, -, hparse⟩ := graph_commit hgraph
    exact ⟨fun p hp => (hmem p).mpr (hparents p hp), (algo_of_parse hparse).1⟩
  have hlevels := levels_of_generation hparsed (fun c hc => (hset c hc).1) fun id hid c hc =>
    hgen id ((hmem id).mp hid) c hc
  obtain ⟨gens, hrun, -, hright⟩ := hlevels.run_eq
  rw [List.length_map, ← hparsed.length_eq] at hrun hright
  have hrelax := relax_eq hpos (fun c hc => (hset c hc).1) hrun
  have hrows : RowsOf odb ids gen (parsed.zip gens) := by
    refine rowsOf_zip hparsed fun i id hid => ?_
    rw [hright i (List.getElem?_eq_some_iff.mp hid).1, hid]
    rfl
  have hzip : ∀ r ∈ parsed.zip gens, r.1 ∈ parsed := fun r hr => (List.of_mem_zip hr).1
  obtain ⟨cdat, words, hcdat, hchunks⟩ := @cdatChunk_ok (ObjectDatabase.algo odb) ids _ hpos hcount
    (parsed.zip gens) (fun r hr => (hset _ (hzip r hr)).1) (fun r hr => (hset _ (hzip r hr)).2) 0
  refine ⟨gen, parsed.zip gens, cdat, words, hgen, hrows, hchunks, ?_⟩
  rw [writeCommitGraph, ← hids]
  simp only [hread, bind, Except.bind, hrelax, hcdat]

/-- What is written is parsed into the tables of the commits. -/
theorem parse_write (hasher : Hasher) (hclosed : ParentClosed odb commits)
    (hacyclic : Acyclic odb commits) (hcount : (sortIds commits).length ≤ 2 ^ 31)
    (hlen : ∀ out, writeCommitGraph hasher odb commits = .ok out → out.length < 2 ^ 64) :
    ∃ out m gen rows cdat words, writeCommitGraph hasher odb commits = .ok out ∧
      parse hasher (ObjectDatabase.algo odb) out = .ok m ∧ IsGeneration odb commits gen ∧
      RowsOf odb (sortIds commits) gen rows ∧
        Rows (sortIds commits) rows 0 cdat words (ObjectDatabase.algo odb) ∧
      Holds m (ObjectDatabase.algo odb) (sortIds commits) cdat words := by
  obtain ⟨gen, rows, cdat, words, hgen, hrows, hchunks, hwrite⟩ :=
    write_ok hasher hclosed hacyclic hcount
  obtain ⟨-, hmem⟩ := sortIds_spec fun id hid => (hclosed id hid).1
  have hshort := hlen _ hwrite
  rw [List.length_append] at hshort
  have hcdat := hchunks.length
  rw [← hrows.length_eq] at hcdat
  obtain ⟨m, hparse, hm⟩ := @parse_body _ _ hasher cdat words
    (fun id hid => (hclosed id ((hmem id).mp hid)).1) hcdat _ rfl
      (Nat.lt_of_le_of_lt (Nat.le_add_right _ _) hshort)
  exact ⟨_, m, gen, rows, cdat, words, hwrite, hparse, hgen, hrows, hchunks, hm⟩

/-- The graph says of every commit what the commit says, and its generation, as far as the fields
reach. -/
def Describes (odb : D) (commits : List ObjectId) (m : CommitGraph) : Prop :=
  ∃ gen, IsGeneration odb commits gen ∧
    ∀ id ∈ commits, ∀ c, graph odb id = some (.commit c) → ∃ pos, m.positionOf id = some pos ∧
      m.treeAt pos = some c.tree ∧ m.parentsAt pos = c.parents ∧
      (0 ≤ c.committer.time → c.committer.time < 2 ^ 34 →
        (m.commitTimeAt pos : Int) = c.committer.time) ∧
      (gen id < 2 ^ 30 → m.generationAt pos = gen id)

/-- **A commit-graph describes its commits**, for as many commits and further parents as there are
positions. -/
theorem parse_writeCommitGraph (hasher : Hasher) (hclosed : ParentClosed odb commits)
    (hacyclic : Acyclic odb commits) (hcount : commits.dedup.length ≤ parentNone)
    (hfurther : (commits.dedup.map (furtherOf odb)).sum ≤ 2 ^ 31)
    (hlen : ∀ out, writeCommitGraph hasher odb commits = .ok out → out.length < 2 ^ 64) :
    ∃ out m, writeCommitGraph hasher odb commits = .ok out ∧
      parse hasher (ObjectDatabase.algo odb) out = .ok m ∧ Describes odb commits m := by
  obtain ⟨hsorted, hmem⟩ := sortIds_spec fun id hid => (hclosed id hid).1
  have hperm := sortIds_perm fun id hid => (hclosed id hid).1
  have hsmall : parentNone ≤ 2 ^ 31 := by decide
  rw [← hperm.length_eq] at hcount
  obtain ⟨out, m, gen, rows, cdat, words, hwrite, hparse, hgen, hrows, hchunks, hm⟩ :=
    parse_write hasher hclosed hacyclic (hcount.trans hsmall) hlen
  have hwords : words.length ≤ 2 ^ 31 := by
    rw [hchunks.words_length, sum_furtherParents hrows, (hperm.map _).sum_nat]
    exact hfurther
  have halgo : ∀ id ∈ sortIds commits, id.algo = ObjectDatabase.algo odb := fun id hid =>
    (hclosed id ((hmem id).mp hid)).1
  refine ⟨out, m, hwrite, hparse, gen, hgen, fun id hid c hc => ?_⟩
  obtain ⟨pos, hposition⟩ := List.mem_iff_getElem?.mp ((hmem id).mpr hid)
  obtain ⟨r, hr, hgraph, hlevel⟩ := hrows.at_row hposition
  cases hgraph.symm.trans hc
  obtain ⟨-, c', hc', hparents⟩ := hclosed id hid
  cases hgraph.symm.trans hc'
  obtain ⟨payload, -, hcommit⟩ := graph_commit hgraph
  have htree := (algo_of_parse hcommit).1
  have hset : ∀ p ∈ r.1.parents, p ∈ sortIds commits := fun p hp => (hmem p).mpr (hparents p hp)
  obtain ⟨htreeAt, hgeneration, htime⟩ := hm.values hchunks (hcount.trans hsmall) hr hset htree
  refine ⟨pos, hm.positionOf halgo hsorted hposition, htreeAt,
    hm.parents hchunks hcount hwords halgo hr hset htree, fun hpos hlt => ?_, fun hlt => ?_⟩
  · rw [htime]
    omega
  · rw [hgeneration, hlevel, Nat.mod_eq_of_lt hlt]

/-- How long a commit-graph is. -/
theorem length_write_le {hasher : Hasher} (hclosed : ParentClosed odb commits)
    (hacyclic : Acyclic odb commits) (hcount : (sortIds commits).length ≤ 2 ^ 31) {out : Bytes}
    (hout : writeCommitGraph hasher odb commits = .ok out) : out.length ≤
      1124 + 80 * (sortIds commits).length + 4 * ((sortIds commits).map (furtherOf odb)).sum := by
  obtain ⟨gen, rows, cdat, words, -, hrows, hchunks, hwrite⟩ :=
    write_ok hasher hclosed hacyclic hcount
  cases hwrite.symm.trans hout
  obtain ⟨-, hmem⟩ := sortIds_spec fun id hid => (hclosed id hid).1
  obtain ⟨n, hn⟩ : ∃ n, n = (sortIds commits).length := ⟨_, rfl⟩
  have hoidl := length_ids fun id hid => (hclosed id ((hmem id).mp hid)).1
  have hcdat := hchunks.length
  rw [← hrows.length_eq, ← hn] at hcdat
  rw [← hn] at hoidl ⊢
  have hwords := hchunks.words_length
  rw [sum_furtherParents hrows] at hwords
  have hoidf : (oidfChunk (sortIds commits)).length = 1024 := by
    rw [oidfChunk, length_table, List.length_range]
  have hedge : (words.flatMap (Sha.bigEndian 4)).length = words.length * 4 :=
    length_table 4 id words
  have hraw : (ObjectDatabase.algo odb).rawLen ≤ 32 := by cases ObjectDatabase.algo odb <;> decide
  have hids : n * (ObjectDatabase.algo odb).rawLen ≤ n * 32 := Nat.mul_le_mul_left _ hraw
  have hcells : n * ((ObjectDatabase.algo odb).rawLen + 16) ≤ n * 48 :=
    Nat.mul_le_mul_left _ (by omega)
  have hbody : ∀ cs, (body (ObjectDatabase.algo odb) cs).length =
      8 + (cs.length + 1) * 12 + (cs.flatMap Prod.snd).length := by
    intro cs
    have hhead : (header (ObjectDatabase.algo odb) cs.length).length = 8 := rfl
    rw [body, List.length_append, List.length_append, hhead, ChunkFile.length_table, Nat.add_assoc]
  rw [List.length_append, hasher.digest_length, hbody, chunks]
  split
  · simp only [List.append_nil, List.length_cons, List.length_nil, List.flatMap_cons,
      List.flatMap_nil,
      List.length_append]
    omega
  · simp only [List.cons_append, List.nil_append, List.length_cons, List.length_nil,
      List.flatMap_cons,
      List.flatMap_nil, List.length_append]
    omega

end Written

/-! ## Histories in a table -/

/-- A database of the commits of a table, which cannot be written. -/
structure TableOdb where
  commits : ObjectId → Option Commit

instance : ObjectDatabase TableOdb where
  algo _ := .sha1
  contains odb id := (odb.commits id).isSome
  read odb id :=
    match odb.commits id with
    | some c => .ok (.commit, c.serialize)
    | none => .error (objectNotFound id)
  write odb _ _ := (.error (.unsupported (str "read-only")), odb)

/-- The id whose bytes are a number. -/
def numberedId (n : Nat) : ObjectId := ⟨.sha1, Sha.bigEndian 20 n, Sha.length_bigEndian 20 n⟩

/-- A commit with these parents, of second 7. -/
def childOf (parents : List ObjectId) : Commit :=
  ⟨numberedId 0, parents, ⟨[97], [97], 7, [43]⟩, ⟨[97], [97], 7, [43]⟩, [], []⟩

theorem parse_childOf {parents : List ObjectId} (h : ∀ p ∈ parents, p.algo = .sha1) :
    Commit.parse .sha1 (childOf parents).serialize = .ok (childOf parents) := by
  have hstamp : (⟨[97], [97], 7, [43]⟩ : Signature).WellFormed :=
    ⟨by decide, by decide, by decide, by decide, by decide⟩
  have hform : (childOf parents).WellFormed .sha1 :=
    ⟨rfl, h, hstamp, hstamp, [], rfl, nofun, nofun, nofun⟩
  exact Commit.parse_serialize_canonical hform.canonical

theorem graph_table {odb : TableOdb} {id : ObjectId} {parents : List ObjectId}
    (h : odb.commits id = some (childOf parents)) (hparents : ∀ p ∈ parents, p.algo = .sha1) :
    graph odb id = some (.commit (childOf parents)) := by
  refine graph_eq_some.mpr ⟨.commit, (childOf parents).serialize, ?_, ?_⟩
  · show (match odb.commits id with
      | some c => .ok (.commit, c.serialize)
      | none => .error (objectNotFound id) : Except Error (ObjectType × Bytes)) = _
    rw [h]
  · show (Commit.parse .sha1 (childOf parents).serialize).map Object.commit = _
    rw [parse_childOf hparents]
    rfl

/-- A history of one commit with parents, and others without. -/
def starOdb (child : ObjectId) (parents : List ObjectId) : TableOdb :=
  ⟨fun id => some (childOf (if id = child then parents else []))⟩

section Star
variable {child : ObjectId} {parents commits : List ObjectId}

theorem graph_star (hparents : ∀ p ∈ parents, p.algo = .sha1) (id : ObjectId) :
    graph (starOdb child parents) id =
      some (.commit (childOf (if id = child then parents else []))) := by
  refine graph_table rfl ?_
  split
  · exact hparents
  · exact nofun

theorem furtherOf_star (hparents : ∀ p ∈ parents, p.algo = .sha1) (id : ObjectId) :
    furtherOf (starOdb child parents) id =
      furtherParents (childOf (if id = child then parents else [])) := by
  rw [furtherOf, graph_star hparents]

theorem parentClosed_star (halgo : ∀ id ∈ commits, id.algo = .sha1)
    (hparents : ∀ p ∈ parents, p ∈ commits) :
    ParentClosed (starOdb child parents) commits := by
  intro id hid
  refine ⟨halgo id hid, _, graph_star (fun p hp => halgo p (hparents p hp)) id, ?_⟩
  show ∀ p ∈ (if id = child then parents else []), p ∈ commits
  split
  · exact hparents
  · exact nofun

theorem acyclic_star (hparents : ∀ p ∈ parents, p.algo = .sha1) (hchild : child ∉ parents) :
    Acyclic (starOdb child parents) commits := by
  have hparent : ∀ {a b : ObjectId}, ObjectGraph.Parent (graph (starOdb child parents)) a b →
      a = child ∧ b ∈ parents := by
    rintro a b ⟨c, hc, hb⟩
    rw [graph_star hparents] at hc
    cases hc
    have hb : b ∈ (if a = child then parents else []) := hb
    split at hb
    · next ha => exact ⟨ha, hb⟩
    · cases hb
  -- a way starts at the child and ends at a parent
  intro id _ hcycle
  have hway : ∀ {a b : ObjectId}, Relation.TransGen
    (ObjectGraph.Parent (graph (starOdb child parents))) a b →
      a = child ∧ b ∈ parents := by
    intro a b h
    induction h with
    | single h => exact hparent h
    | tail _ h ih => exact ⟨ih.1, (hparent h).2⟩
  obtain ⟨rfl, hmem⟩ := hway hcycle
  exact hchild hmem

end Star

/-- A merge of three roots, given more than once. -/
theorem parse_writeCommitGraph_octopus : ∃ out m pos,
    writeCommitGraph .sha (starOdb (numberedId 4) [numberedId 3, numberedId 1, numberedId 2])
        [numberedId 4, numberedId 1, numberedId 2, numberedId 3, numberedId 1] = .ok out ∧
      parse .sha .sha1 out = .ok m ∧ m.positionOf (numberedId 4) = some pos ∧
      m.parentsAt pos = [numberedId 3, numberedId 1, numberedId 2] ∧ m.generationAt pos = 2 ∧
      m.commitTimeAt pos = 7 := by
  obtain ⟨commits, hcommits⟩ : ∃ commits,
      commits = [numberedId 4, numberedId 1, numberedId 2, numberedId 3, numberedId 1] := ⟨_, rfl⟩
  have hparents : ∀ p ∈ [numberedId 3, numberedId 1, numberedId 2], p.algo = .sha1 := by
    simp [numberedId]
  have hclosed : ParentClosed (starOdb (numberedId 4) [numberedId 3, numberedId 1,
      numberedId 2]) commits := by
    subst hcommits
    exact parentClosed_star (by simp [numberedId]) (by simp)
  have hacyclic : Acyclic (starOdb (numberedId 4) [numberedId 3, numberedId 1,
      numberedId 2]) commits :=
    acyclic_star hparents (by decide)
  have hfurther : (commits.dedup.map (furtherOf
      (starOdb (numberedId 4) [numberedId 3, numberedId 1, numberedId 2]))).sum ≤ 12 := by
    rw [show furtherOf (starOdb (numberedId 4) [numberedId 3, numberedId 1, numberedId 2]) = _ from
      funext (furtherOf_star hparents), hcommits]
    decide
  have hcount : commits.dedup.length ≤ 5 := hcommits ▸ List.Sublist.length_le (List.dedup_sublist _)
  have hperm := sortIds_perm fun id hid => (hclosed id hid).1
  obtain ⟨out, m, hwrite, hparse, gen, hgen, hcommit⟩ :=
    parse_writeCommitGraph .sha hclosed hacyclic
    (hcount.trans (by decide)) (hfurther.trans (by decide)) fun out hout => by
      have hlen := length_write_le hclosed hacyclic (by rw [hperm.length_eq]; omega) hout
      rw [hperm.length_eq, (hperm.map _).sum_nat] at hlen
      omega
  obtain ⟨pos, hpos, -, hat, htime, hlevel⟩ :=
    hcommit (numberedId 4) (hcommits ▸ List.mem_cons_self) _
    (graph_star hparents _)
  have hroot : ∀ n, n ∈ [1, 2, 3] → gen (numberedId n) = 1 := by
    intro n hn
    have hmem : numberedId n ∈ commits := by
      rw [hcommits]
      simp only [List.mem_cons, List.not_mem_nil, or_false] at hn
      rcases hn with rfl | rfl | rfl <;> simp
    have hne : numberedId n ≠ numberedId 4 := by
      simp only [List.mem_cons, List.not_mem_nil, or_false] at hn
      rcases hn with rfl | rfl | rfl <;> decide
    rw [hgen _ hmem _ (graph_star hparents _), if_neg hne]
    rfl
  have hfour : gen (numberedId 4) = 2 := by
    rw [hgen _ (hcommits ▸ List.mem_cons_self) _ (graph_star hparents _), if_pos rfl]
    show (List.map gen [numberedId 3, numberedId 1, numberedId 2]).foldr max 0 + 1 = 2
    simp only [List.map_cons, List.map_nil, hroot 1 (by decide), hroot 2 (by decide),
      hroot 3 (by decide)]
    rfl
  have hdate := htime (show (0 : Int) ≤ 7 by decide) (show (7 : Int) < 2 ^ 34 by decide)
  refine ⟨out, m, pos, hcommits ▸ hwrite, hparse, hpos, hat, ?_, Int.ofNat.inj hdate⟩
  rw [hlevel (by rw [hfour]; decide), hfour]

/-! ## More commits than there are positions

The position of the last of `parentNone + 1` commits is the number of a slot without a parent, so a
child of that commit alone is read as a root.
-/

/-- The greatest id of all that are used. -/
def greatestId : ObjectId := numberedId (255 * 256 ^ 19)

theorem numberedId_inj {i j : Nat} (hi : i < 256 ^ 20) (hj : j < 256 ^ 20)
    (h : numberedId i = numberedId j) :
    i = j := by
  have hbytes : Sha.bigEndian 20 i = Sha.bigEndian 20 j := congrArg ObjectId.bytes h
  have hvalue := congrArg ObjectId.natOfBytes hbytes
  rwa [ObjectId.natOfBytes_bigEndian, ObjectId.natOfBytes_bigEndian, Nat.mod_eq_of_lt hi,
    Nat.mod_eq_of_lt hj] at hvalue

theorem numberedId_lt {i : Nat} (hi : i < 2 ^ 32) : (numberedId i).bytes < greatestId.bytes := by
  have hhead : i / 256 ^ 19 = 0 := Nat.div_eq_of_lt (by omega)
  show UInt8.ofNat (i / 256 ^ 19) :: Sha.bigEndian 19 i < _
  rw [hhead]
  exact List.cons_lt_cons_iff.mpr (Or.inl (by decide))

/-- Commits of which the last has the greatest id. -/
def manyCommits (n : Nat) : List ObjectId := (List.range n).map numberedId ++ [greatestId]

section Many
variable {n : Nat}

theorem manyCommits_nodup (hn : n ≤ 2 ^ 32) : (manyCommits n).Nodup := by
  rw [manyCommits]
  refine List.nodup_append.mpr ⟨?_, List.nodup_singleton _, ?_⟩
  · refine List.Nodup.map_on ?_ List.nodup_range
    intro i hi j hj h
    rw [List.mem_range] at hi hj
    exact numberedId_inj (by omega) (by omega) h
  · rintro id hid _ hlast rfl
    obtain ⟨i, hi, rfl⟩ := List.mem_map.mp hid
    have hlt := numberedId_lt (i := i) (by rw [List.mem_range] at hi; omega)
    rw [List.mem_singleton.mp hlast] at hlt
    exact absurd hlt (lt_irrefl _)

/-- The greatest id is at the last position. -/
theorem idxOf_greatestId (hn : n ≤ 2 ^ 32) : (sortIds (manyCommits n)).length = n + 1 ∧
    (sortIds (manyCommits n)).idxOf greatestId = n := by
  have halgo : ∀ id ∈ manyCommits n, id.algo = .sha1 := by
    intro id hid
    rcases List.mem_append.mp hid with hid | hid
    · obtain ⟨i, -, rfl⟩ := List.mem_map.mp hid
      rfl
    · rw [List.mem_singleton.mp hid]
      rfl
  obtain ⟨hsorted, hmem⟩ := sortIds_spec halgo
  have hlen : (sortIds (manyCommits n)).length = n + 1 := by
    rw [(sortIds_perm halgo).length_eq, (manyCommits_nodup hn).dedup, manyCommits,
      List.length_append,
      List.length_map, List.length_range, List.length_singleton]
  have hin : greatestId ∈ sortIds (manyCommits n) :=
    (hmem _).mpr (List.mem_append_right _ (List.mem_singleton_self _))
  refine ⟨hlen, ?_⟩
  by_contra hne
  have hlt := List.idxOf_lt_length_iff.mpr hin
  have hlast := List.pairwise_iff_getElem.mp hsorted _ n hlt (by omega) (by omega)
  rw [List.getElem_idxOf hlt] at hlast
  have hle : (sortIds (manyCommits n))[n].bytes ≤ greatestId.bytes := by
    rcases List.mem_append.mp ((hmem _).mp (List.getElem_mem (by omega : n < _))) with hid | hid
    · obtain ⟨i, hi, heq⟩ := List.mem_map.mp hid
      rw [← heq]
      exact le_of_lt (numberedId_lt (by rw [List.mem_range] at hi; omega))
    · rw [List.mem_singleton.mp hid]
  exact absurd hlast (not_lt.mpr hle)

end Many

/-- **A commit-graph of more commits than there are positions does not describe them**: a child of
the last one has no parents in it. -/
theorem not_describes :
    ¬ ∀ (D : Type) [ObjectDatabase D] (hasher : Hasher) (odb : D) (commits : List ObjectId),
    ParentClosed odb commits → Acyclic odb commits →
      ∃ out m, writeCommitGraph hasher odb commits = .ok out ∧
        parse hasher (ObjectDatabase.algo odb) out = .ok m ∧ Describes odb commits m := by
  intro h
  -- the number is kept apart, so that nothing counts up to it
  obtain ⟨n, hn⟩ : ∃ n, n = parentNone := ⟨_, rfl⟩
  have hnone : parentNone = 0x70000000 := rfl
  have hpos : 0 < n := by omega
  obtain ⟨child, hchild⟩ : ∃ child, child = numberedId 0 := ⟨_, rfl⟩
  have hmemChild : child ∈ manyCommits n :=
    List.mem_append_left _ (List.mem_map.mpr ⟨0, List.mem_range.mpr hpos, hchild.symm⟩)
  have hmemGreatest : greatestId ∈ manyCommits n :=
    List.mem_append_right _ (List.mem_singleton_self _)
  have halgo : ∀ id ∈ manyCommits n, id.algo = .sha1 := by
    intro id hid
    rcases List.mem_append.mp hid with hid | hid
    · obtain ⟨i, -, rfl⟩ := List.mem_map.mp hid
      rfl
    · rw [List.mem_singleton.mp hid]
      rfl
  have hparents : ∀ p ∈ [greatestId], p.algo = .sha1 := by simpa using halgo _ hmemGreatest
  have hclosed : ParentClosed (starOdb child [greatestId]) (manyCommits n) :=
    parentClosed_star halgo (by simpa using hmemGreatest)
  have hne : child ≠ greatestId := fun heq => by
    have hlt := @numberedId_lt 0 (by decide)
    rw [← hchild, heq] at hlt
    exact absurd hlt (lt_irrefl _)
  have hacyclic : Acyclic (starOdb child [greatestId]) (manyCommits n) :=
    acyclic_star hparents (by simpa using hne)
  obtain ⟨hcount, hindex⟩ := @idxOf_greatestId n (by omega)
  obtain ⟨out, m, hwrite, hparse, gen', -, hdescribes⟩ := h TableOdb .sha _ _ hclosed hacyclic
  have hfurther : ((sortIds (manyCommits n)).map (furtherOf (starOdb child [greatestId]))).sum =
      0 := by
    rw [List.sum_eq_zero]
    rw [List.forall_mem_map]
    intro id _
    rw [furtherOf_star hparents]
    split <;> rfl
  obtain ⟨out', m', gen, rows, cdat, words, hwrite', hparse', -, hrows, hchunks, hm⟩ :=
    parse_write .sha hclosed hacyclic (by omega) fun out hout => by
      have hlen := length_write_le hclosed hacyclic (by omega) hout
      rw [hfurther, hcount] at hlen
      omega
  cases hwrite.symm.trans hwrite'
  cases hparse.symm.trans hparse'
  obtain ⟨pos, hposition, -, hat, -⟩ := hdescribes child hmemChild _ (graph_star hparents _)
  rw [if_pos rfl] at hat
  obtain ⟨hsorted, hmem⟩ := sortIds_spec halgo
  obtain ⟨i, hi⟩ := List.mem_iff_getElem?.mp ((hmem child).mpr hmemChild)
  have hfound := hm.positionOf (fun id hid => halgo id ((hmem id).mp hid)) hsorted hi
  cases hposition.symm.trans hfound
  obtain ⟨r, hr, hgraph, -⟩ := hrows.at_row hi
  rw [graph_star hparents, if_pos rfl] at hgraph
  have hcommit : r.1 = childOf [greatestId] := (Object.commit.inj (Option.some.inj hgraph)).symm
  have hset : ∀ p ∈ r.1.parents, p ∈ sortIds (manyCommits n) := by
    rw [hcommit]
    show ∀ p ∈ [greatestId], p ∈ sortIds (manyCommits n)
    simpa using (hmem _).mpr hmemGreatest
  -- the position of the parent is that of a slot without one
  obtain ⟨pre, post, s, hs, -, -, hfirst, -⟩ :=
    hm.record_fields hchunks (by omega) hr hset (by rw [hcommit]; rfl)
  have hslot : s.1 = parentNone := by
    rw [hs, hcommit]
    show (sortIds (manyCommits n)).idxOf greatestId = parentNone
    rw [hindex, hn]
  rw [parentsAt, hfirst, hslot, if_pos rfl] at hat
  cases hat

end CommitGraph
end Puregit
