import Puregit.Lib.BestFirst
import Puregit.Walk.MergeBase

/-! # The commit walk

`RevWalk` yields the commits reachable from some tips, newest first: `step` pops the
newest commit queued and queues its parents, each id once.  A commit that is missing is
skipped.  An error is yielded in the place of a commit, and the walk goes on from the
state it left.

The queue of the program is a binary heap.  Its order is total on what is queued, since
no two entries have one sequence number, so that popping the heap takes the entry that
`popMax` finds.
-/
namespace Puregit
open ObjectDatabase ObjectGraph

/-- A commit waiting in the queue. -/
structure Queued where
  time : Int
  seq : Nat
  id : ObjectId
  commit : Commit

/-- Whether an entry is to be popped before another: a later date, then an earlier
sequence number, compares greater. -/
def Queued.greater (a b : Queued) : Bool :=
  a.time > b.time || a.time = b.time && a.seq < b.seq

/-- The greatest entry of a queue and the others. -/
def popMax : List Queued → Option (Queued × List Queued)
  | [] => none
  | q :: queue =>
      match popMax queue with
      | none => some (q, queue)
      | some (m, rest) => if m.greater q then some (m, q :: rest) else some (q, queue)

/-- An iterator over the commits reachable from some tips. -/
structure RevWalk where
  pendingTips : List ObjectId
  queue : List Queued
  seen : BTreeSet ObjectId
  seq : Nat

namespace RevWalk
variable {D : Type} [ObjectDatabase D]

/-- Starts a walk from some tips. -/
def new (tips : List ObjectId) : RevWalk := ⟨tips, [], BTreeSet.empty, 0⟩

/-- Reads `id` and queues it, once; a missing commit is skipped. -/
def enqueue (odb : D) (w : RevWalk) (id : ObjectId) : Except Error Unit × RevWalk :=
  if w.seen.contains id then (.ok (), w)
  else
    let w := { w with seen := w.seen.insert id }
    match readTyped odb id .commit with
    | .error (.notFound _) => (.ok (), w)
    | .error e => (.error e, w)
    | .ok payload =>
      match Commit.parse (algo odb) payload with
      | .error e => (.error e, w)
      | .ok commit =>
        let seq := w.seq + 1
        (.ok (), { w with seq := seq, queue := ⟨commit.committer.time, seq, id,
          commit⟩ :: w.queue })

/-- Queues some ids in order, up to the first error. -/
def enqueueAll (odb : D) (w : RevWalk) : List ObjectId → Except Error Unit × RevWalk
  | [] => (.ok (), w)
  | id :: ids =>
      match enqueue odb w id with
      | (.ok (), w) => enqueueAll odb w ids
      | (.error e, w) => (.error e, w)

/-- Advances to the next commit. -/
def step (odb : D) (w : RevWalk) : Except Error (Option (ObjectId × Commit)) × RevWalk :=
  let tips := w.pendingTips
  match enqueueAll odb { w with pendingTips := [] } tips with
  | (.error e, w) => (.error e, w)
  | (.ok (), w) =>
    match popMax w.queue with
    | none => (.ok none, w)
    | some (q, rest) =>
      match enqueueAll odb { w with queue := rest } q.commit.parents with
      | (.error e, w) => (.error e, w)
      | (.ok (), w) => (.ok (some (q.id, q.commit)), w)

/-- What iterating to the end yields. -/
def iterate (odb : D) : Nat → RevWalk → Option (List (Except Error (ObjectId × Commit)))
  | 0, _ => none
  | fuel + 1, w =>
      match step odb w with
      | (.ok none, _) => some []
      | (.ok (some item), w) => (iterate odb fuel w).map (.ok item :: ·)
      | (.error e, w) => (iterate odb fuel w).map (.error e :: ·)

end RevWalk

/-! ## The queue -/

/-- **What is popped**: an entry of the queue with the latest date. -/
theorem popMax_spec {queue rest : List Queued} {q : Queued} (h : popMax queue = some (q, rest)) :
    queue.Perm (q :: rest) ∧ ∀ x ∈ queue, x.time ≤ q.time := by
  induction queue generalizing q rest with
  | nil => cases h
  | cons a queue ih =>
      rw [popMax] at h
      split at h
      · rename_i hnone
        cases h
        have hempty : queue = [] := by
          cases queue with
          | nil => rfl
          | cons b queue =>
              rw [popMax] at hnone
              split at hnone
              · cases hnone
              · split at hnone <;> cases hnone
        refine ⟨List.Perm.refl _, fun x hx => ?_⟩
        rw [hempty] at hx
        rw [List.mem_singleton.mp hx]
      · rename_i m others hm
        obtain ⟨hperm, hmax⟩ := ih hm
        split at h
        · rename_i hgreater
          cases h
          have hle : a.time ≤ q.time := by
            rcases Bool.or_eq_true_iff.mp hgreater with hlt | heq
            · exact (of_decide_eq_true hlt).le
            · exact (of_decide_eq_true (Bool.and_eq_true_iff.mp heq).1).ge
          refine ⟨(hperm.cons a).trans (List.Perm.swap q a others), fun x hx => ?_⟩
          rcases List.mem_cons.mp hx with rfl | hx
          · exact hle
          · exact hmax x hx
        · rename_i hgreater
          have hle : m.time ≤ a.time := by
            by_contra hlt
            exact hgreater (Bool.or_eq_true_iff.mpr (Or.inl (decide_eq_true (not_le.mp hlt))))
          cases h
          refine ⟨List.Perm.refl _, fun x hx => ?_⟩
          rcases List.mem_cons.mp hx with rfl | hx
          · exact le_refl _
          · exact (hmax x hx).trans hle

theorem popMax_eq_none {queue : List Queued} : popMax queue = none ↔ queue = [] := by
  cases queue with
  | nil => simp [popMax]
  | cons a queue =>
      rw [popMax]
      split
      · simp
      · split <;> simp

/-- An entry names the commit it carries. -/
def Queued.Matches (g : ObjectGraph) (q : Queued) : Prop :=
  g q.id = some (.commit q.commit) ∧ q.time = q.commit.committer.time

theorem Queued.Matches.time_eq {g : ObjectGraph} {q : Queued} (h : q.Matches g) :
    committerTime g q.id = q.time := by
  rw [committerTime, h.1, h.2]

namespace RevWalk
variable {D : Type} [ObjectDatabase D]

/-! ## Queueing -/

/-- The database has no object of this id. -/
def Missing (odb : D) (id : ObjectId) : Prop := ∃ hint, read odb id = .error (.notFound hint)

/-- The id names a commit or nothing. -/
def CommitOrMissing (odb : D) (id : ObjectId) : Prop := IsCommit (graph odb) id ∨ Missing odb id

/-- What queueing some ids does: those not met before are met now, and the commits among
them are queued once each. -/
structure Enqueued (odb : D) (w : RevWalk) (ids : List ObjectId) (w' : RevWalk) : Prop where
  pending : w'.pendingTips = w.pendingTips
  mem_seen : ∀ x, x ∈ w'.seen ↔ x ∈ ids ∨ x ∈ w.seen
  queue : ∃ fresh, w'.queue = fresh ++ w.queue ∧ (fresh.map Queued.id).Nodup ∧
    (∀ q ∈ fresh, q.Matches (graph odb)) ∧
    ∀ x, x ∈ fresh.map Queued.id ↔ x ∈ ids ∧ x ∉ w.seen ∧ IsCommit (graph odb) x

theorem enqueue_seen {odb : D} {w : RevWalk} {id : ObjectId} (h : id ∈ w.seen) :
    enqueue odb w id = (.ok (), w) := if_pos h

theorem enqueue_missing {odb : D} {w : RevWalk} {id : ObjectId} (h : id ∉ w.seen)
    (hid : Missing odb id) : enqueue odb w id = (.ok (), { w with seen := w.seen.insert id }) := by
  obtain ⟨hint, hread⟩ := hid
  have htyped : readTyped odb id .commit = .error (.notFound hint) := by
    rw [readTyped, hread]
    rfl
  have hnot : ¬ w.seen.contains id = true := h
  rw [enqueue, if_neg hnot]
  simp only [htyped]

theorem enqueue_commit {odb : D} {w : RevWalk} {id : ObjectId} {c : Commit} (h : id ∉ w.seen)
    (hid : graph odb id = some (.commit c)) : enqueue odb w id =
      (.ok (), { w with
        seen := w.seen.insert id
        seq := w.seq + 1
        queue := ⟨c.committer.time, w.seq + 1, id, c⟩ :: w.queue }) := by
  obtain ⟨ty, payload, hr, hp⟩ := graph_eq_some.mp hid
  obtain rfl : ty = .commit := (Object.objectType_parse hp).symm
  obtain ⟨c', hparse, hcc⟩ := except_map_ok.mp hp
  cases hcc
  have hnot : ¬ w.seen.contains id = true := h
  rw [enqueue, if_neg hnot]
  simp only [readTyped_ok.mpr hr, hparse]

theorem not_isCommit_of_missing {odb : D} {id : ObjectId} (h : Missing odb id) :
    ¬ IsCommit (graph odb) id := by
  rintro ⟨c, hc⟩
  obtain ⟨hint, hread⟩ := h
  obtain ⟨ty, payload, hr, -⟩ := graph_eq_some.mp hc
  rw [hread] at hr
  cases hr

/-- Queueing one id. -/
theorem enqueue_enqueued {odb : D} (w : RevWalk) {id : ObjectId} (hid : CommitOrMissing odb id) :
    ∃ w', enqueue odb w id = (.ok (), w') ∧ Enqueued odb w [id] w' := by
  by_cases hseen : id ∈ w.seen
  · refine ⟨w, enqueue_seen hseen, rfl, fun x => ?_, [], rfl, List.nodup_nil, nofun, fun x => ?_⟩
    · rw [List.mem_singleton]
      constructor
      · exact Or.inr
      · rintro (rfl | hx)
        · exact hseen
        · exact hx
    · constructor
      · nofun
      · rintro ⟨hx, hnot, -⟩
        rw [List.mem_singleton.mp hx] at hnot
        exact absurd hseen hnot
  rcases hid with ⟨c, hc⟩ | hmissing
  · refine ⟨_, enqueue_commit hseen hc, rfl, fun x => ?_,
      [⟨c.committer.time, w.seq + 1, id, c⟩], rfl,
      List.nodup_singleton _, fun q hq => ?_, fun x => ?_⟩
    · rw [List.mem_singleton]
      exact BTreeSet.mem_insert
    · rw [List.mem_singleton.mp hq]
      exact ⟨hc, rfl⟩
    · rw [List.map_singleton, List.mem_singleton]
      constructor
      · rintro rfl
        exact ⟨rfl, hseen, c, hc⟩
      · exact fun hx => hx.1
  · refine ⟨_, enqueue_missing hseen hmissing, rfl, fun x => ?_, [], rfl, List.nodup_nil, nofun,
      fun x => ?_⟩
    · rw [List.mem_singleton]
      exact BTreeSet.mem_insert
    · constructor
      · nofun
      · rintro ⟨hx, -, hcommit⟩
        rw [List.mem_singleton.mp hx] at hcommit
        exact absurd hcommit (not_isCommit_of_missing hmissing)

/-- **Queueing some ids**, each of which names a commit or nothing. -/
theorem enqueueAll_enqueued {odb : D} {ids : List ObjectId} :
    ∀ {w : RevWalk}, (∀ id ∈ ids, CommitOrMissing odb id) →
      ∃ w', enqueueAll odb w ids = (.ok (), w') ∧ Enqueued odb w ids w' := by
  induction ids with
  | nil =>
      intro w _
      refine ⟨w, rfl, rfl, fun x => ?_, [], rfl, List.nodup_nil, nofun, fun x => ?_⟩ <;> simp
  | cons id ids ih =>
      intro w hids
      obtain ⟨w₁, hw₁, h₁⟩ := enqueue_enqueued w (hids id List.mem_cons_self)
      obtain ⟨w₂, hw₂, h₂⟩ := ih (w := w₁) fun x hx => hids x (List.mem_cons_of_mem id hx)
      obtain ⟨fresh₁, hqueue₁, hnodup₁, hmatch₁, hmem₁⟩ := h₁.queue
      obtain ⟨fresh₂, hqueue₂, hnodup₂, hmatch₂, hmem₂⟩ := h₂.queue
      refine ⟨w₂, ?_, h₂.pending.trans h₁.pending, fun x => ?_, fresh₂ ++ fresh₁, ?_, ?_,
        ?_, fun x => ?_⟩
      · rw [enqueueAll, hw₁]
        exact hw₂
      · rw [h₂.mem_seen, h₁.mem_seen, List.mem_singleton, List.mem_cons]
        tauto
      · rw [hqueue₂, hqueue₁, List.append_assoc]
      · rw [List.map_append]
        refine hnodup₂.append hnodup₁ fun x hx₂ hx₁ => ?_
        -- what the first id queued is met by the time the others are
        obtain ⟨-, hunseen, -⟩ := (hmem₂ x).mp hx₂
        exact hunseen ((h₁.mem_seen x).mpr (Or.inl ((hmem₁ x).mp hx₁).1))
      · intro q hq
        rcases List.mem_append.mp hq with hq | hq
        · exact hmatch₂ q hq
        · exact hmatch₁ q hq
      · rw [List.map_append, List.mem_append, hmem₁, hmem₂, h₁.mem_seen, List.mem_singleton,
          List.mem_cons]
        by_cases hx : x = id
        · tauto
        · tauto

/-! ## The walk -/

/-- A tip that is a commit. -/
def Start (odb : D) (tips : List ObjectId) (x : ObjectId) : Prop :=
  x ∈ tips ∧ IsCommit (graph odb) x

/-- A parent that is a commit. -/
def Leads (odb : D) (x y : ObjectId) : Prop := Parent (graph odb) x y ∧ IsCommit (graph odb) y

/-- The commits the tips reach through commits. -/
abbrev Reached (odb : D) (tips : List ObjectId) : ObjectId → Prop :=
  BestFirst.Reached (Start odb tips) (Leads odb)

/-- The commits queued by the time `taken` were yielded, those left out. -/
abbrev Waiting (odb : D) (tips : List ObjectId) (taken : List ObjectId) : ObjectId → Prop :=
  BestFirst.Waiting (Start odb tips) (Leads odb) taken

/-- The sequences of commits a walk by date may yield. -/
abbrev ByDate (odb : D) (tips : List ObjectId) : List ObjectId → Prop :=
  BestFirst.Run (Start odb tips) (Leads odb) (committerTime (graph odb))

/-- The state after some commits were yielded: the queue holds what waits, and exactly
the tips and the parents of what was yielded were met. -/
structure WalkInv (odb : D) (tips : List ObjectId) (taken : List ObjectId)
    (w : RevWalk) : Prop where
  pending : w.pendingTips = []
  byDate : ByDate odb tips taken
  matches_graph : ∀ q ∈ w.queue, q.Matches (graph odb)
  nodup : (w.queue.map Queued.id).Nodup
  mem_queue : ∀ x, x ∈ w.queue.map Queued.id ↔ Waiting odb tips taken x
  mem_seen : ∀ x, x ∈ w.seen ↔ x ∈ tips ∨ ∃ z ∈ taken, Parent (graph odb) z x

section Walk
variable {odb : D} {tips : List ObjectId}

/-- A commit that was met waits or was taken. -/
theorem WalkInv.waiting_of_seen {taken : List ObjectId} {w : RevWalk} (h : WalkInv odb tips taken w)
    {x : ObjectId} (hseen : x ∈ w.seen) (hx : IsCommit (graph odb) x) (hnot : x ∉ taken) :
    Waiting odb tips taken x := by
  refine ⟨?_, hnot⟩
  rcases (h.mem_seen x).mp hseen with htip | ⟨z, hz, hzx⟩
  · exact Or.inl ⟨htip, hx⟩
  · exact Or.inr ⟨z, hz, hzx, hx⟩

theorem WalkInv.seen_of_waiting {taken : List ObjectId} {w : RevWalk} (h : WalkInv odb tips taken w)
    {x : ObjectId} (hx : Waiting odb tips taken x) : x ∈ w.seen := by
  rcases hx.1 with hstart | ⟨z, hz, hzx, -⟩
  · exact (h.mem_seen x).mpr (Or.inl hstart.1)
  · exact (h.mem_seen x).mpr (Or.inr ⟨z, hz, hzx⟩)

theorem WalkInv.seen_of_taken {taken : List ObjectId} {w : RevWalk} (h : WalkInv odb tips taken w)
    {x : ObjectId} (hx : x ∈ taken) : x ∈ w.seen := by
  obtain ⟨before, after, rfl⟩ := List.append_of_mem hx
  rcases (h.byDate.pick rfl).1.1 with hstart | ⟨z, hz, hzx, -⟩
  · exact (h.mem_seen x).mpr (Or.inl hstart.1)
  · exact (h.mem_seen x).mpr (Or.inr ⟨z, List.mem_append_left _ hz, hzx⟩)

/-- Queueing the tips starts a walk. -/
theorem walkInv_start {w : RevWalk} (h : Enqueued odb { new tips with pendingTips := [] } tips w) :
    WalkInv odb tips [] w := by
  obtain ⟨fresh, hqueue, hnodup, hmatch, hmem⟩ := h.queue
  have hqueue' : w.queue = fresh := by rw [hqueue]; exact List.append_nil fresh
  refine ⟨h.pending, .nil, ?_, ?_, fun x => ?_, fun x => ?_⟩
  · rwa [hqueue']
  · rwa [hqueue']
  · rw [hqueue', hmem]
    constructor
    · rintro ⟨htip, -, hcommit⟩
      exact ⟨Or.inl ⟨htip, hcommit⟩, List.not_mem_nil⟩
    · rintro ⟨hstart | ⟨z, hz, -⟩, -⟩
      · exact ⟨hstart.1, BTreeSet.not_mem_empty x, hstart.2⟩
      · cases hz
  · rw [h.mem_seen]
    constructor
    · rintro (htip | hempty)
      · exact Or.inl htip
      · exact absurd hempty (BTreeSet.not_mem_empty x)
    · rintro (htip | ⟨z, hz, -⟩)
      · exact Or.inl htip
      · cases hz

/-- What is popped is a newest commit of those waiting. -/
theorem WalkInv.pick {taken : List ObjectId} {w : RevWalk}
    (h : WalkInv odb tips taken w) {q : Queued} {rest : List Queued}
    (hpop : popMax w.queue = some (q, rest)) :
    BestFirst.Pick (Start odb tips) (Leads odb) (committerTime (graph odb)) taken q.id := by
  obtain ⟨hperm, hmax⟩ := popMax_spec hpop
  have hq : q ∈ w.queue := hperm.mem_iff.mpr List.mem_cons_self
  refine ⟨(h.mem_queue q.id).mp (List.mem_map_of_mem hq), fun x hx => ?_⟩
  obtain ⟨p, hp, rfl⟩ := List.mem_map.mp ((h.mem_queue x).mpr hx)
  rw [(h.matches_graph p hp).time_eq, (h.matches_graph q hq).time_eq]
  exact hmax p hp

/-- **One step of the walk**: the newest commit waiting is yielded and its parents are
queued. -/
theorem WalkInv.next {taken : List ObjectId} {w w' : RevWalk}
    (h : WalkInv odb tips taken w) {q : Queued} {rest : List Queued}
    (hpop : popMax w.queue = some (q, rest))
    (hparents : Enqueued odb { w with queue := rest } q.commit.parents w') :
    WalkInv odb tips (taken ++ [q.id]) w' := by
  have hpick := h.pick hpop
  obtain ⟨hperm, -⟩ := popMax_spec hpop
  obtain ⟨fresh, hqueue, hnodup, hmatch, hmem⟩ := hparents.queue
  have hqueue' : w'.queue = fresh ++ rest := hqueue
  have hq : graph odb q.id = some (.commit q.commit) :=
    (h.matches_graph q (hperm.mem_iff.mpr List.mem_cons_self)).1
  have hparent : ∀ x, Parent (graph odb) q.id x ↔ x ∈ q.commit.parents := by
    intro x
    constructor
    · rintro ⟨c, hc, hx⟩
      rw [hq] at hc
      cases hc
      exact hx
    · exact fun hx => ⟨q.commit, hq, hx⟩
  -- the entries left in the queue: what waited, but for the commit popped
  have hrest : ((q :: rest).map Queued.id).Nodup := (hperm.map Queued.id).nodup_iff.mp h.nodup
  have hmem_rest : ∀ x, x ∈ rest.map Queued.id ↔ Waiting odb tips taken x ∧ x ≠ q.id := by
    intro x
    rw [← h.mem_queue, (hperm.map Queued.id).mem_iff, List.map_cons, List.mem_cons]
    constructor
    · intro hx
      refine ⟨Or.inr hx, ?_⟩
      rintro rfl
      exact (List.nodup_cons.mp hrest).1 hx
    · rintro ⟨hx | hx, hne⟩
      · exact absurd hx hne
      · exact hx
  have hseen : ∀ x, x ∈ w'.seen ↔ Parent (graph odb) q.id x ∨ x ∈ w.seen := by
    intro x
    rw [hparents.mem_seen, hparent]
  constructor
  case pending => exact hparents.pending.trans h.pending
  case byDate => exact h.byDate.snoc hpick
  case matches_graph =>
    intro p hp
    rw [hqueue'] at hp
    rcases List.mem_append.mp hp with hp | hp
    · exact hmatch p hp
    · exact h.matches_graph p (hperm.mem_iff.mpr (List.mem_cons_of_mem q hp))
  case nodup =>
    rw [hqueue', List.map_append]
    refine hnodup.append (List.nodup_cons.mp hrest).2 fun x hfresh hold => ?_
    exact ((hmem x).mp hfresh).2.1 (h.seen_of_waiting ((hmem_rest x).mp hold).1)
  case mem_queue =>
    intro x
    rw [hqueue', List.map_append, List.mem_append, hmem, hmem_rest, ← hparent]
    constructor
    · rintro (⟨hpx, hunseen, hcommit⟩ | ⟨⟨hsource, hnot⟩, hne⟩)
      · -- a parent met for the first time was not taken, nor is it the commit popped
        refine ⟨Or.inr ⟨q.id, List.mem_append_right _ (List.mem_singleton_self _),
          hpx, hcommit⟩, ?_⟩
        intro hx
        rcases List.mem_append.mp hx with hx | hx
        · exact hunseen (h.seen_of_taken hx)
        · rw [List.mem_singleton.mp hx] at hunseen
          exact hunseen (h.seen_of_waiting hpick.1)
      · refine ⟨hsource.imp_right fun ⟨z, hz, hzx⟩ => ⟨z, List.mem_append_left _ hz, hzx⟩, ?_⟩
        intro hx
        rcases List.mem_append.mp hx with hx | hx
        · exact hnot hx
        · exact hne (List.mem_singleton.mp hx)
    · rintro ⟨hsource, hnot⟩
      have hnot' : x ∉ taken := fun hx => hnot (List.mem_append_left _ hx)
      have hne : x ≠ q.id := by
        rintro rfl
        exact hnot (List.mem_append_right _ (List.mem_singleton_self _))
      have hcommit : IsCommit (graph odb) x := by
        rcases hsource with hstart | ⟨z, -, hzx⟩
        · exact hstart.2
        · exact hzx.2
      by_cases hold : x ∈ w.seen
      · exact Or.inr ⟨h.waiting_of_seen hold hcommit hnot', hne⟩
      · refine Or.inl ⟨?_, hold, hcommit⟩
        rcases hsource with hstart | ⟨z, hz, hzx⟩
        · exact absurd ((h.mem_seen x).mpr (Or.inl hstart.1)) hold
        · rcases List.mem_append.mp hz with hz | hz
          · exact absurd ((h.mem_seen x).mpr (Or.inr ⟨z, hz, hzx.1⟩)) hold
          · rw [List.mem_singleton.mp hz] at hzx
            exact hzx.1
  case mem_seen =>
    intro x
    rw [hseen, h.mem_seen]
    constructor
    · rintro (hpx | htip | ⟨z, hz, hzx⟩)
      · exact Or.inr ⟨q.id, List.mem_append_right _ (List.mem_singleton_self _), hpx⟩
      · exact Or.inl htip
      · exact Or.inr ⟨z, List.mem_append_left _ hz, hzx⟩
    · rintro (htip | ⟨z, hz, hzx⟩)
      · exact Or.inr (Or.inl htip)
      · rcases List.mem_append.mp hz with hz | hz
        · exact Or.inr (Or.inr ⟨z, hz, hzx⟩)
        · rw [List.mem_singleton.mp hz] at hzx
          exact Or.inl hzx

/-- A step from an empty queue ends the walk. -/
theorem step_end {w : RevWalk} (hpending : w.pendingTips = []) (hqueue : w.queue = []) :
    step odb w = (.ok none, w) := by
  obtain ⟨_, _, seen, seq⟩ := w
  cases hpending
  cases hqueue
  rfl

/-- A step from any other queue yields what is popped and queues its parents. -/
theorem step_pop {w : RevWalk} (hpending : w.pendingTips = []) {q : Queued} {rest : List Queued}
    (hpop : popMax w.queue = some (q, rest))
    (hparents : ∀ x ∈ q.commit.parents, CommitOrMissing odb x) :
    ∃ w', step odb w = (.ok (some (q.id, q.commit)), w') ∧
      Enqueued odb { w with queue := rest } q.commit.parents w' := by
  obtain ⟨w', hw', henqueued⟩ := enqueueAll_enqueued (w := { w with queue := rest }) hparents
  refine ⟨w', ?_, henqueued⟩
  obtain ⟨_, queue, seen, seq⟩ := w
  cases hpending
  rw [step]
  simp only [enqueueAll, hpop, hw']

/-- The tips are queued by the first step. -/
theorem step_new {w : RevWalk} (h : enqueueAll odb
    { new tips with pendingTips := [] } tips = (.ok (), w)) (hpending :
    w.pendingTips = []) : step odb (new tips) = step odb w := by
  obtain ⟨_, queue, seen, seq⟩ := w
  cases hpending
  show (match enqueueAll odb { new tips with pendingTips := [] } tips with
    | (.error e, w) => (Except.error e, w)
    | (.ok (), w) => _) = _
  rw [h]
  rfl

/-- **A walk run to its end** has left nothing waiting. -/
theorem WalkInv.iterate (hparents : ∀ x y, Parent (graph odb) x y → CommitOrMissing odb y)
    {fuel : Nat} :
    ∀ {taken : List ObjectId} {w : RevWalk}, WalkInv odb tips taken w →
      ObjectId.count < fuel + taken.length →
      ∃ ys : List (ObjectId × Commit), RevWalk.iterate odb fuel w = some (ys.map .ok) ∧
        (∀ p ∈ ys, graph odb p.1 = some (.commit p.2)) ∧
          ByDate odb tips (taken ++ ys.map Prod.fst) ∧
        ∀ x, ¬ Waiting odb tips (taken ++ ys.map Prod.fst) x := by
  induction fuel with
  | zero =>
      intro taken w h hfuel
      have hle : taken.length ≤ ObjectId.count :=
        length_le_of_codes h.byDate.nodup ObjectId.code (fun _ _ => ObjectId.code_injective)
          ObjectId.code_lt
      omega
  | succ fuel ih =>
      intro taken w h hfuel
      cases hpop : popMax w.queue with
      | none =>
          have hqueue := popMax_eq_none.mp hpop
          refine ⟨[], ?_, nofun, ?_, fun x hx => ?_⟩
          · rw [RevWalk.iterate, step_end h.pending hqueue]
            rfl
          · rw [List.map_nil, List.append_nil]
            exact h.byDate
          · rw [List.map_nil, List.append_nil] at hx
            have hin := (h.mem_queue x).mpr hx
            rw [hqueue] at hin
            cases hin
      | some popped =>
          obtain ⟨q, rest⟩ := popped
          have hq := h.matches_graph q ((popMax_spec hpop).1.mem_iff.mpr List.mem_cons_self)
          obtain ⟨w', hstep, henqueued⟩ := step_pop h.pending hpop fun x hx =>
            hparents q.id x ⟨q.commit, hq.1, hx⟩
          obtain ⟨ys, hys, hcommits, hrun, hend⟩ := ih (h.next hpop henqueued) (by
            rw [List.length_append, List.length_singleton]
            omega)
          have happend : taken ++ [q.id] ++ ys.map Prod.fst =
              taken ++ ((q.id, q.commit) :: ys).map Prod.fst := by
            rw [List.append_assoc, List.map_cons]
            rfl
          rw [happend] at hrun hend
          refine ⟨(q.id, q.commit) :: ys, ?_, fun p hp => ?_, hrun, hend⟩
          · rw [RevWalk.iterate, hstep]
            show (RevWalk.iterate odb fuel w').map _ = _
            rw [hys]
            rfl
          · rcases List.mem_cons.mp hp with rfl | hp
            · exact hq.1
            · exact hcommits p hp

/-- **The commit walk** yields the commits the tips reach through commits, each once and
always a newest one of those queued; where no commit is newer than a child of it, the
times do not increase, and a commit comes after its newer descendants. -/
theorem iterate_spec (htips : ∀ t ∈ tips, CommitOrMissing odb t)
    (hparents : ∀ x y, Parent (graph odb) x y → CommitOrMissing odb y) :
    ∃ ys : List (ObjectId × Commit), RevWalk.iterate odb ObjectId.fuel (new tips) =
      some (ys.map .ok) ∧
      (∀ p ∈ ys, graph odb p.1 = some (.commit p.2)) ∧
      (ys.map Prod.fst).Nodup ∧ (∀ x, x ∈ ys.map Prod.fst ↔ Reached odb tips x) ∧
      (∀ before y after, ys.map Prod.fst = before ++ y :: after → Waiting odb tips before y ∧
        ∀ x, Waiting odb tips before x → committerTime (graph odb) x ≤
          committerTime (graph odb) y) ∧
      ((∀ x y, Leads odb x y → committerTime (graph odb) y ≤ committerTime (graph odb) x) →
        ((ys.map Prod.fst).Pairwise fun x y =>
          committerTime (graph odb) y ≤ committerTime (graph odb) x) ∧
        ∀ before x after, ys.map Prod.fst = before ++ x :: after → ∀ y, Reached odb tips y →
          Relation.ReflTransGen (Leads odb) y x →
          committerTime (graph odb) x < committerTime (graph odb) y → y ∈ before) := by
  obtain ⟨w, hw, henqueued⟩ := enqueueAll_enqueued (w := { new tips with pendingTips := [] }) htips
  have hinv := walkInv_start henqueued
  obtain ⟨ys, hys, hcommits, hrun, hend⟩ :=
    @WalkInv.iterate _ _ odb tips hparents ObjectId.fuel [] w hinv
    (Nat.lt_succ_self ObjectId.count)
  rw [List.nil_append] at hrun hend
  refine ⟨ys, ?_, hcommits, hrun.nodup, hrun.mem_iff hend, fun before y after h => hrun.pick h,
    fun hdown => ?_⟩
  · rw [ObjectId.fuel, RevWalk.iterate, step_new hw hinv.pending]
    exact hys
  · have hsorted := hrun.descends hdown
    refine ⟨hsorted, fun before x after h y hy _ hnewer => ?_⟩
    have hmem := (hrun.mem_iff hend y).mpr hy
    rw [h] at hmem hsorted
    rcases List.mem_append.mp hmem with hmem | hmem
    · exact hmem
    · -- what is yielded from `x` on is not newer than it
      have hle := (List.pairwise_cons.mp (List.pairwise_append.mp hsorted).2.1).1
      rcases List.mem_cons.mp hmem with rfl | hmem
      · exact absurd hnewer (lt_irrefl _)
      · exact absurd (hle y hmem) (not_le.mpr hnewer)

end Walk

end RevWalk

namespace CrissCross

/-- The id of no object of the store. -/
def absent : ObjectId := ObjectId.zero .sha1

/-- The walk from both merges and an id that is missing. -/
theorem iterate_merges : ∃ ys : List (ObjectId × Commit),
    RevWalk.iterate history ObjectId.fuel (RevWalk.new [mergeLeft, absent, mergeRight]) =
      some (ys.map .ok) ∧
    (ys.map Prod.fst).Nodup ∧
    (∀ x, x ∈ ys.map Prod.fst ↔ RevWalk.Reached history [mergeLeft, absent, mergeRight] x) ∧
    (ys.map Prod.fst).Pairwise fun x y =>
      committerTime (graph history) y ≤ committerTime (graph history) x := by
  have htips : readCommit history mergeLeft = .ok (some (commitAt [left, right] 7 120)) ∧
      readCommit history mergeRight = .ok (some (commitAt [right, left] 8 121)) ∧
      read history absent = .error (objectNotFound absent) ∧
      history.parentsOlder = true := by decide +kernel
  obtain ⟨hleft, hright, habsent, holder⟩ := htips
  obtain ⟨ys, hys, -, hnodup, hmem, -, hdates⟩ :=
    @RevWalk.iterate_spec MemoryOdb _ history [mergeLeft, absent, mergeRight]
      (fun t ht => by
        rcases List.mem_cons.mp ht with rfl | ht
        · exact Or.inl ⟨_, readCommit_some.mp hleft⟩
        rcases List.mem_cons.mp ht with rfl | ht
        · exact Or.inr ⟨_, habsent⟩
        · rw [List.mem_singleton.mp ht]
          exact Or.inl ⟨_, readCommit_some.mp hright⟩)
      (fun x y hxy => Or.inl (complete.parents x y hxy))
  refine ⟨ys, hys, hnodup, hmem, (hdates fun x y hxy => ?_).1⟩
  exact (MemoryOdb.older_of_parentsOlder holder x y hxy.1).le

/-- Newest first, the branches after the merges. -/
example : ((RevWalk.iterate history 7 (RevWalk.new [mergeLeft, absent, mergeRight])).map fun ys =>
    ys.map fun y => y.map Prod.fst) =
      some [.ok mergeRight, .ok mergeLeft, .ok right, .ok left, .ok base] := by decide +kernel

end CrissCross

end Puregit
