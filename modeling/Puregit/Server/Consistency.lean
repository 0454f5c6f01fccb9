import Puregit.Server.Holdings
import Puregit.Server.Objects

/-! # A fetch leaves the client consistent

A client that adds the objects of a plan and moves its boundary as told ends with a
consistent store holding what it wanted: `plan_consistent_iff`.  Every way of planning
but one sends a wanted commit together with its tree, and with its parents or a boundary
mark.  The exception is a request by date or excluded refs that wants a commit the walk
does not select: the commit is sent bare, and the client is consistent only if the rest
of the response, or what it has, happens to supply what the commit names.
-/
namespace Puregit.Server
open ObjectDatabase ObjectGraph Relation

variable {D : Type} [ObjectDatabase D]

/-- What the server knows of the client's holdings. -/
def Want.known (odb : D) (req : Want) : Set ObjectId :=
  { x | Known (graph odb) (req.haves.filter (contains odb)) (BTreeSet.ofList req.clientShallow) x }

/-- A client of the request: its objects are those the ids name, it holds the closure of
its haves cut at its boundary, and its store is consistent with that boundary. -/
structure ClientView (odb : D) (req : Want) (client : ObjectGraph) : Prop where
  agrees : ∀ x o o', client x = some o → graph odb x = some o' → o = o'
  closed : ∀ h ∈ req.haves, ∀ x, ReflTransGen (CutRefers client req.boundary) h x → Holds client x
  consistent : Consistent client req.boundary

/-- The client's store with the plan's objects added. -/
def received (odb : D) (client : ObjectGraph) (p : Plan) : ObjectGraph := fun x =>
  (client x).or (if p.objects.contains x then graph odb x else none)

/-- The client's boundary after the plan's changes. -/
def newBoundary (req : Want) (p : Plan) : Set ObjectId :=
  { x | (x ∈ req.boundary ∧ x ∉ p.unshallow) ∨ x ∈ p.shallow }

/-- The commits the wants peel to. -/
def Want.tips (odb : D) (req : Want) : Set ObjectId :=
  { t | ∃ w ∈ req.wants, peelToCommit odb tagLimit w = .ok (some t) }

/-- What a client has after a request by date or excluded refs: what it held, what it
wanted, the commits selected with their trees, and what a wanted tag, tree or blob that
it was not known to hold leads to outside what it was known to hold. -/
inductive Delivered (odb : D) (refs : RefView) (req : Want) (client : ObjectGraph) :
    ObjectId → Prop
  | held {x} (h : Holds client x) : Delivered odb refs req client x
  | wanted {x} (hx : x ∈ req.wants) (h : Holds (graph odb) x) : Delivered odb refs req client x
  | commit {c} (h : Selected odb refs req.deepen (req.tips odb) c) : Delivered odb refs req client c
  | tree {c commit x} (h : Selected odb refs req.deepen (req.tips odb) c)
      (hc : graph odb c = some (.commit commit))
      (hx : ReflTransGen (InTree (graph odb)) commit.tree x) : Delivered odb refs req client x
  | other {w x} (hw : w ∈ req.wants) (h : Holds (graph odb) w) (hc : ¬ IsCommit (graph odb) w)
      (hk : w ∉ req.known odb)
      (hx : ReflTransGen (RefersOutside (graph odb) (req.known odb)) w x) :
      Delivered odb refs req client x

/-- The wanted commits that are not selected come with their trees and parents all the
same. -/
def BareWantsSupplied (odb : D) (refs : RefView) (req : Want) (client : ObjectGraph) : Prop :=
  ∀ w ∈ req.wants, ∀ c, graph odb w = some (.commit c) → ¬ Eligible odb refs req.deepen w →
    (∀ x, ReflTransGen (InTree (graph odb)) c.tree x → Delivered odb refs req client x) ∧
      (w ∉ req.boundary → ∀ p ∈ c.parents, Delivered odb refs req client p)

section Store
variable {odb : D} {req : Want} {client : ObjectGraph} {p : Plan}

theorem holds_received {x : ObjectId} :
    Holds (received odb client p) x ↔ Holds client x ∨ x ∈ p.objects ∧ Holds (graph odb) x := by
  rw [Holds, Holds, Holds, received, Option.isSome_or, Bool.or_eq_true]
  refine or_congr_right ?_
  split
  · rename_i hx
    exact ⟨fun h => ⟨hx, h⟩, fun h => h.2⟩
  · rename_i hx
    exact ⟨fun h => by simp at h, fun h => absurd h.1 hx⟩

theorem received_of_client {x : ObjectId} {o : Object} (h : client x = some o) :
    received odb client p x = some o := by
  rw [received, h, Option.some_or]

/-- An object of the store is the client's own, or one sent. -/
theorem received_cases {x : ObjectId} {o : Object} (h : received odb client p x = some o) :
    client x = some o ∨ ¬ Holds client x ∧ x ∈ p.objects ∧ graph odb x = some o := by
  rw [received] at h
  cases hc : client x with
  | some o' =>
      rw [hc, Option.some_or] at h
      exact Or.inl h
  | none =>
      rw [hc, Option.none_or] at h
      split at h
      · rename_i hx
        exact Or.inr ⟨by simp [Holds, hc], hx, h⟩
      · cases h

/-- What the store and the database both hold is the same object. -/
theorem ClientView.received_agrees (hv : ClientView odb req client) {x : ObjectId} {o : Object}
    (h : Holds (received odb client p) x) (hx : graph odb x = some o) :
    received odb client p x = some o := by
  obtain ⟨o', ho'⟩ := Option.isSome_iff_exists.mp h
  rcases received_cases ho' with hc | ⟨-, -, hg⟩
  · rw [ho', hv.agrees x o' o hc hx]
  · rw [ho', ← hg, hx]

/-- **The client holds what it is known to hold.** -/
theorem ClientView.known_held (hv : ClientView odb req client) (hc : Complete odb) {x : ObjectId}
    (h : x ∈ req.known odb) : Holds client x := by
  obtain ⟨root, hroot, hpath⟩ := Known.cut_reachable hc h
  clear h
  obtain ⟨hhave, hcontains⟩ := List.mem_filter.mp hroot
  have hroot' : Holds (graph odb) root := hc.contains_iff_holds.mp hcontains
  refine hv.closed root hhave x ?_
  have hboth : ReflTransGen (CutRefers client req.boundary) root x ∧ Holds (graph odb) x := by
    induction hpath with
    | refl => exact ⟨.refl, hroot'⟩
    | @tail a b _ hab ih =>
        obtain ⟨hpath, -⟩ := ih
        obtain ⟨⟨o, ho, hb⟩, hcut⟩ := hab
        -- the client has the same object under this id
        obtain ⟨o', ho'⟩ := Option.isSome_iff_exists.mp (hv.closed root hhave a hpath)
        obtain rfl : o' = o := hv.agrees a o' o ho' ho
        refine ⟨hpath.tail ⟨⟨o', ho', hb⟩, fun ha => ?_⟩, hc.closed a b ⟨o', ho, hb⟩⟩
        rcases hcut (BTreeSet.mem_toSet.mpr (BTreeSet.mem_ofList.mpr ha)) with hn | ⟨c, hcc, rfl⟩
        · refine Or.inl fun hcommit => hn ?_
          obtain ⟨c, rfl⟩ := isCommit_of_eq ho' hcommit
          exact ⟨c, ho⟩
        · rw [ho] at hcc
          cases hcc
          exact Or.inr ⟨c, ho', rfl⟩
  exact hboth.1

/-- The tree of a commit the client held is still what it was. -/
theorem ClientView.tree_of_client (hv : ClientView odb req client) {a : ObjectId} {c : Commit}
    (ha : client a = some (.commit c)) {x : ObjectId}
    (hx : ReflTransGen (InTree (received odb client p)) c.tree x) :
    Holds (received odb client p) x := by
  have hown : ReflTransGen (InTree client) c.tree x := by
    induction hx with
    | refl => exact .refl
    | @tail y z _ hyz ih =>
        obtain ⟨o, ho⟩ := Option.isSome_iff_exists.mp (hv.consistent.trees a c ha y ih)
        obtain ⟨t, ht, hz⟩ := hyz
        rw [received_of_client ho] at ht
        cases ht
        exact ih.tail ⟨t, ho, hz⟩
  exact holds_received.mpr (Or.inl (hv.consistent.trees a c ha x hown))

/-- A tree of the database is the same in the store. -/
theorem ClientView.tree_of_server (hv : ClientView odb req client) (hc : Complete odb)
    {t x : ObjectId} (ht : Holds (graph odb) t)
    (hx : ReflTransGen (InTree (received odb client p)) t x) :
    ReflTransGen (InTree (graph odb)) t x := by
  have hboth : ReflTransGen (InTree (graph odb)) t x ∧ Holds (graph odb) x := by
    induction hx with
    | refl => exact ⟨.refl, ht⟩
    | @tail y z _ hyz ih =>
        obtain ⟨hpath, hy⟩ := ih
        obtain ⟨tree, htree, hz⟩ := hyz
        obtain ⟨o, ho⟩ := Option.isSome_iff_exists.mp hy
        have hsome : Holds (received odb client p) y := by rw [Holds, htree]; rfl
        rw [hv.received_agrees hsome ho] at htree
        cases htree
        exact ⟨hpath.tail ⟨tree, ho, hz⟩, hc.closed y z ⟨_, ho, hz⟩⟩
  exact hboth.1

/-- **What must be checked of the commits received**: their trees, their parents unless
they are on the new boundary, and the parents of the commits taken off the old one. -/
theorem ClientView.consistent_received (hv : ClientView odb req client) (hc : Complete odb)
    (hnew : ∀ a c, a ∈ p.objects → graph odb a = some (.commit c) → ¬ Holds client a →
      (∀ x, ReflTransGen (InTree (graph odb)) c.tree x → Holds (received odb client p) x) ∧
        (a ∉ newBoundary req p → ∀ b ∈ c.parents, Holds (received odb client p) b))
    (hun : ∀ a ∈ p.unshallow, ∃ c, graph odb a = some (.commit c) ∧
      ∀ b ∈ c.parents, Holds (received odb client p) b) :
    Consistent (received odb client p) (newBoundary req p) where
  parents a b hab ha := by
    obtain ⟨c, hcommit, hb⟩ := hab
    rcases received_cases hcommit with hown | ⟨hno, hobj, hg⟩
    · by_cases hold : a ∈ req.boundary
      · have hau : a ∈ p.unshallow := by
          by_contra hau
          exact ha (Or.inl ⟨hold, hau⟩)
        obtain ⟨c', hg, hall⟩ := hun a hau
        cases hv.agrees a _ _ hown hg
        exact hall b hb
      · exact holds_received.mpr (Or.inl (hv.consistent.parents a b ⟨c, hown, hb⟩ hold))
    · exact (hnew a c hobj hg hno).2 ha b hb
  trees a c hcommit x hx := by
    rcases received_cases hcommit with hown | ⟨hno, hobj, hg⟩
    · exact hv.tree_of_client hown hx
    · exact (hnew a c hobj hg hno).1 x (hv.tree_of_server hc (hc.closed a _ (refers_tree hg)) hx)

end Store

variable {odb : D} {refs : RefView} {req : Want} {p : Plan}

theorem known_eq (hc : Complete odb) {r : BTreeSet ObjectId}
    (h : clientHoldings odb (req.haves.filter (contains odb)) (BTreeSet.ofList req.clientShallow)
      = .ok r) : r.toSet = req.known odb :=
  Set.ext fun _ => (mem_clientHoldings h).trans (assumed_iff_known hc)

/-! ## What is supplied -/

section Fetch
variable {client : ObjectGraph}

theorem ClientView.supplied (hv : ClientView odb req client) (hc : Complete odb) {x : ObjectId}
    (hx : x ∈ req.known odb ∨ x ∈ p.objects) (hg : Holds (graph odb) x) :
    Holds (received odb client p) x := by
  rcases hx with hx | hx
  · exact holds_received.mpr (Or.inl (hv.known_held hc hx))
  · exact holds_received.mpr (Or.inr ⟨hx, hg⟩)

/-- Going down a tree one stays outside, or enters the known objects for good. -/
theorem known_or_outside (hc : Complete odb) {r a x : ObjectId}
    (ha : a ∈ req.known odb ∨ Outside (graph odb) (req.known odb) r a)
    (hx : ReflTransGen (InTree (graph odb)) a x) :
    x ∈ req.known odb ∨ Outside (graph odb) (req.known odb) r x := by
  induction hx with
  | refl => exact ha
  | tail _ hyz ih =>
      rcases ih with hy | hy
      · exact Or.inl (Known.inTree hc hy hyz)
      · exact hy.step hyz.refers

theorem ClientView.tree_supplied (hv : ClientView odb req client) (hc : Complete odb)
    {r a x : ObjectId} (hall : ∀ x, Outside (graph odb) (req.known odb) r x → x ∈ p.objects)
    (ha : a ∈ req.known odb ∨ Outside (graph odb) (req.known odb) r a) (hg : Holds (graph odb) a)
    (hx : ReflTransGen (InTree (graph odb)) a x) : Holds (received odb client p) x := by
  refine hv.supplied hc ?_ (hc.holds_path hg (ReflTransGen.mono (fun _ _ he => he.refers) a x hx))
  exact (known_or_outside hc ha hx).imp_right (hall x)

/-- If all that `r` leads to is sent, a commit among it comes with its tree and parents. -/
theorem ClientView.commit_supplied (hv : ClientView odb req client) (hc : Complete odb)
    {r a : ObjectId} {c : Commit}
    (hall : ∀ x, Outside (graph odb) (req.known odb) r x → x ∈ p.objects)
    (ha : Outside (graph odb) (req.known odb) r a) (hg : graph odb a = some (.commit c)) :
    (∀ x, ReflTransGen (InTree (graph odb)) c.tree x → Holds (received odb client p) x) ∧
      ∀ b ∈ c.parents, Holds (received odb client p) b := by
  constructor
  · intro x hx
    exact hv.tree_supplied hc hall (ha.step (refers_tree hg)) (hc.closed a _ (refers_tree hg)) hx
  · intro b hb
    have hab : Refers (graph odb) a b := Parent.refers ⟨c, hg, hb⟩
    exact hv.supplied hc ((ha.step hab).imp_right (hall b)) (hc.closed a b hab)

/-- Selected commits come with their trees, and off the boundary with their parents. -/
theorem ClientView.selected_supplied (hv : ClientView odb req client) (hc : Complete odb)
    {tips : List ObjectId} {included boundary : BTreeSet ObjectId}
    (hsel : Selects (graph odb) tips included boundary)
    (hcommits : ∀ x ∈ included, x ∉ req.known odb → x ∈ p.objects)
    (htrees : ∀ a ∈ included, ∀ c, graph odb a = some (.commit c) → ∀ x,
      Outside (graph odb) (req.known odb) c.tree x → x ∈ p.objects)
    {a : ObjectId} {c : Commit} (ha : a ∈ included) (hg : graph odb a = some (.commit c)) :
    (∀ x, ReflTransGen (InTree (graph odb)) c.tree x → Holds (received odb client p) x) ∧
      (a ∉ boundary → ∀ b ∈ c.parents, Holds (received odb client p) b) := by
  constructor
  · intro x hx
    refine hv.tree_supplied hc (htrees a ha c hg) ?_ (hc.closed a _ (refers_tree hg)) hx
    by_cases hk : c.tree ∈ req.known odb
    · exact Or.inl hk
    · exact Or.inr ⟨hk, .refl⟩
  · intro hb b hbp
    have hab : Parent (graph odb) a b := ⟨c, hg, hbp⟩
    have hin : b ∈ included := hsel.closed a ha hb b hab (hc.parents a b hab)
    refine hv.supplied hc ?_ (hc.closed a b hab.refers)
    by_cases hk : b ∈ req.known odb
    · exact Or.inl hk
    · exact Or.inr (hcommits b hin hk)

/-- A commit lies in no tree. -/
theorem not_isCommit_of_tree (hc : Complete odb) {a x : ObjectId} {c : Commit}
    (hg : graph odb a = some (.commit c)) (hx : ReflTransGen (Refers (graph odb)) c.tree x) :
    ¬ IsCommit (graph odb) x := by
  rintro ⟨c', hx'⟩
  obtain ⟨tree, ht⟩ := hc.trees a c hg
  rcases (hc.inTree_of_refers ht hx).2 with ⟨_, hxt⟩ | ⟨_, hxb⟩
  · rw [hx'] at hxt
    cases hxt
  · rw [hx'] at hxb
    cases hxb

/-- The wants are held afterwards exactly when somebody has them. -/
theorem ClientView.wants_held (hv : ClientView odb req client)
    (hasked : ∀ x, x ∈ req.wants → x ∉ req.haves → x ∈ p.objects) :
    (∀ w ∈ req.wants, Holds (received odb client p) w) ↔
      ∀ w ∈ req.wants, Holds client w ∨ Holds (graph odb) w := by
  refine forall₂_congr fun w hw => ?_
  rw [holds_received]
  constructor
  · rintro (h | ⟨-, h⟩)
    · exact Or.inl h
    · exact Or.inr h
  · rintro (h | h)
    · exact Or.inl h
    · by_cases hhave : w ∈ req.haves
      · exact Or.inl (hv.closed w hhave w .refl)
      · exact Or.inr ⟨hasked w hw hhave, h⟩

/-- A fetch that moves no boundary leaves the client consistent. -/
theorem ClientView.plain_consistent (hv : ClientView odb req client) (hc : Complete odb)
    (h : plan odb refs req = .ok p) (hactive : req.deepen.isActive = false) :
    Consistent (received odb client p) (newBoundary req p) := by
  obtain ⟨known, hknown, hobjects, -, hunshallow⟩ := plan_plain h hactive
  rw [known_eq hc hknown] at hobjects
  have hsent : ∀ w ∈ req.wants, ∀ x, Outside (graph odb) (req.known odb) w x → x ∈ p.objects :=
    fun w hw x hx => (hobjects x).mpr (Or.inr ⟨w, hw, hx⟩)
  refine hv.consistent_received hc (fun a c ha hg hno => ?_) (fun a ha => ?_)
  · have hout : ∃ w ∈ req.wants, Outside (graph odb) (req.known odb) w a := by
      rcases (hobjects a).mp ha with ⟨hw, -⟩ | hout
      · exact ⟨a, hw, fun hk => hno (hv.known_held hc hk), .refl⟩
      · exact hout
    obtain ⟨w, hw, hout⟩ := hout
    obtain ⟨htree, hparents⟩ := hv.commit_supplied hc (hsent w hw) hout hg
    exact ⟨htree, fun _ => hparents⟩
  · rw [hunshallow] at ha
    cases ha

/-- A fetch that moves the boundary leaves the client consistent if the wanted commits
that are not selected are supplied with what they name. -/
theorem ClientView.deepening_consistent (hv : ClientView odb req client) (hc : Complete odb)
    (h : plan odb refs req = .ok p) (hactive : req.deepen.isActive = true)
    (hbare : ∀ t included boundary, TipsOf odb req.wants t →
      selectCommits odb refs (BTreeSet.ofList req.clientShallow) t.tips req.deepen =
        .ok (included, boundary) →
      ∀ w ∈ req.wants, ∀ c, graph odb w = some (.commit c) → w ∉ included →
        (∀ x, ReflTransGen (InTree (graph odb)) c.tree x → Holds (received odb client p) x) ∧
          (w ∉ newBoundary req p → ∀ b ∈ c.parents, Holds (received odb client p) b)) :
    Consistent (received odb client p) (newBoundary req p) := by
  obtain ⟨known, t, included, boundary, hknown, ht, hselect, hobjects, hshallow, hunshallow⟩ :=
    plan_deepening h hactive
  have htips := collectTips_spec ht
  rw [known_eq hc hknown] at hobjects
  obtain ⟨hsel, -, -⟩ := selectCommits_selects hselect
  have hincluded : ∀ {a c}, a ∈ included → graph odb a = some (.commit c) →
      (∀ x, ReflTransGen (InTree (graph odb)) c.tree x → Holds (received odb client p) x) ∧
        (a ∉ boundary → ∀ b ∈ c.parents, Holds (received odb client p) b) :=
    hv.selected_supplied hc hsel
      (fun x hx hk => (hobjects x).mpr (Or.inr (Or.inl ⟨hx, hk⟩)))
      (fun a ha c hg x hx => (hobjects x).mpr (Or.inr (Or.inr (Or.inl ⟨a, ha, c, hg, hx⟩))))
  -- a commit taken off or never put on the boundary is not on the walk's
  have hoff : ∀ a, a ∉ newBoundary req p → a ∉ boundary := by
    intro a ha hb
    by_cases hold : a ∈ req.boundary
    · exact ha (Or.inl ⟨hold, fun hu => ((hunshallow a).mp hu).2.2 hb⟩)
    · exact ha (Or.inr ((hshallow a).mpr ⟨hb, hold⟩))
  refine hv.consistent_received hc (fun a c ha hg hno => ?_) (fun a ha => ?_)
  · by_cases hin : a ∈ included
    · obtain ⟨htree, hparents⟩ := hincluded hin hg
      exact ⟨htree, fun hb => hparents (hoff a hb)⟩
    rcases (hobjects a).mp ha with ⟨hw, -⟩ | ⟨hin', -⟩ | ⟨a', ha', c', hg', hx⟩ | ⟨e, he, hx⟩
    · exact hbare t included boundary htips hselect a hw c hg hin
    · exact absurd hin' hin
    · exact absurd ⟨c, hg⟩ (not_isCommit_of_tree hc hg' hx.refers)
    · obtain ⟨htree, hparents⟩ := hv.commit_supplied hc
        (fun x hx => (hobjects x).mpr (Or.inr (Or.inr (Or.inr ⟨e, he, hx⟩)))) hx hg
      exact ⟨htree, fun _ => hparents⟩
  · obtain ⟨-, hin, hb⟩ := (hunshallow a).mp ha
    obtain ⟨c, hg⟩ := hsel.commits a hin
    exact ⟨c, hg, (hincluded hin hg).2 hb⟩

/-- **What a request by date or excluded refs delivers.** -/
theorem ClientView.holds_received_iff (hv : ClientView odb req client) (hc : Complete odb)
    (h : plan odb refs req = .ok p) (hactive : req.deepen.isActive = true)
    (hdepth : req.deepen.depth = none) {x : ObjectId} :
    Holds (received odb client p) x ↔ Delivered odb refs req client x := by
  obtain ⟨known, t, included, boundary, hknown, ht, hselect, hobjects, -, -⟩ :=
    plan_deepening h hactive
  have htips := collectTips_spec ht
  rw [known_eq hc hknown] at hobjects
  obtain ⟨hsel, -, hselected⟩ := selectCommits_selects hselect
  have htipset : { c | c ∈ t.tips } = req.tips odb := Set.ext fun c => htips.mem_tips c
  have hmem : ∀ c, c ∈ included ↔ Selected odb refs req.deepen (req.tips odb) c := by
    intro c
    rw [hselected hdepth c, htipset]
  have hgraph : ∀ {c}, c ∈ included → Holds (graph odb) c := by
    intro c hcin
    obtain ⟨commit, hg⟩ := hsel.commits c hcin
    rw [Holds, hg]
    rfl
  constructor
  · intro hx
    rcases holds_received.mp hx with hown | ⟨hobj, hg⟩
    · exact .held hown
    rcases (hobjects x).mp hobj with ⟨hw, -⟩ | ⟨hin, -⟩ | ⟨c, hin, commit, hgc,
      hout⟩ | ⟨e, he, hout⟩
    · exact .wanted hw hg
    · exact .commit ((hmem x).mp hin)
    · obtain ⟨tree, htree⟩ := hc.trees c commit hgc
      exact .tree ((hmem c).mp hin) hgc (hc.inTree_of_refers htree hout.refers).1
    · obtain ⟨w, hw, hchain, hother⟩ := htips.extra_chain e he
      -- the chain of tags to `e` stays outside what is known, as `e` is
      have hpath : w ∉ req.known odb ∧
          ReflTransGen (RefersOutside (graph odb) (req.known odb)) w e := by
        have hne := hout.1
        clear hout he hother
        induction hchain with
        | refl => exact ⟨hne, .refl⟩
        | @tail y z _ hyz ih =>
            have hy : y ∉ req.known odb := fun hy => hne (Known.tagRef hc hy hyz)
            obtain ⟨hw', hpath⟩ := ih hy
            exact ⟨hw', hpath.tail ⟨hyz.refers, hne⟩⟩
      have hwg : Holds (graph odb) w ∧ ¬ IsCommit (graph odb) w := by
        cases hchain.cases_head with
        | inl heq =>
            subst heq
            have hno := hother.not_commit
            obtain ⟨ty, payload, hr, -⟩ := hother
            obtain ⟨o, ho⟩ := hc.parses w ty payload hr
            have hgo : graph odb w = some o := graph_eq_some.mpr ⟨ty, payload, hr, ho⟩
            exact ⟨by rw [Holds, hgo]; rfl, hno⟩
        | inr hstep =>
            obtain ⟨y, ⟨tag, htag, -⟩, -⟩ := hstep
            refine ⟨by rw [Holds, htag]; rfl, fun hcommit => ?_⟩
            obtain ⟨c, hcc⟩ := isCommit_of_eq htag hcommit
            cases hcc
      exact .other hw hwg.1 hwg.2 hpath.1 (hpath.2.trans hout.2)
  · intro hx
    cases hx with
    | held hown => exact holds_received.mpr (Or.inl hown)
    | wanted hw hg =>
        by_cases hhave : x ∈ req.haves
        · exact holds_received.mpr (Or.inl (hv.closed x hhave x .refl))
        · exact hv.supplied hc (Or.inr ((hobjects x).mpr (Or.inl ⟨hw, hhave⟩))) hg
    | commit hsc =>
        have hin := (hmem x).mpr hsc
        refine hv.supplied hc ?_ (hgraph hin)
        by_cases hk : x ∈ req.known odb
        · exact Or.inl hk
        · exact Or.inr ((hobjects x).mpr (Or.inr (Or.inl ⟨hin, hk⟩)))
    | @tree c commit _ hsc hgc htree =>
        exact (hv.selected_supplied hc hsel
          (fun y hy hk => (hobjects y).mpr (Or.inr (Or.inl ⟨hy, hk⟩)))
          (fun a ha c hg y hy => (hobjects y).mpr (Or.inr (Or.inr (Or.inl ⟨a, ha, c, hg, hy⟩))))
          ((hmem c).mpr hsc) hgc).1 x htree
    | @other w _ hw hg hno hk hpath =>
        have he : w ∈ t.extra := htips.other_mem w hw (readsOther_of_holds hg hno)
        refine hv.supplied hc
          (Or.inr ((hobjects x).mpr (Or.inr (Or.inr (Or.inr ⟨w, he, hk, hpath⟩))))) ?_
        exact hc.holds_path hg (ReflTransGen.mono (fun _ _ he => he.1) w x hpath)

/-- In a request by date or excluded refs a consistent result supplies the commits that
were sent bare. -/
theorem ClientView.bareWantsSupplied (hv : ClientView odb req client) (hc : Complete odb)
    (h : plan odb refs req = .ok p) (hactive : req.deepen.isActive = true)
    (hdepth : req.deepen.depth = none)
    (hheld : ∀ w ∈ req.wants, Holds (received odb client p) w)
    (hcons : Consistent (received odb client p) (newBoundary req p)) :
    BareWantsSupplied odb refs req client := by
  intro w hw c hg hineligible
  have hdelivered : ∀ {x}, Holds (received odb client p) x → Delivered odb refs req client x :=
    (hv.holds_received_iff hc h hactive hdepth).mp
  have hcommit := hv.received_agrees (hheld w hw) hg
  constructor
  · intro x hx
    have hpath : ReflTransGen (InTree (received odb client p)) c.tree x := by
      induction hx with
      | refl => exact .refl
      | @tail y z _ hyz ih =>
          obtain ⟨tree, htree, hz⟩ := hyz
          exact ih.tail ⟨tree, hv.received_agrees (hcons.trees w c hcommit y ih) htree, hz⟩
    exact hdelivered (hcons.trees w c hcommit x hpath)
  · intro hold b hb
    refine hdelivered (hcons.parents w b ⟨c, hcommit, hb⟩ ?_)
    -- a commit that is not selected is not put on the boundary
    obtain ⟨-, t, included, boundary, -, -, hselect, -, hshallow, -⟩ := plan_deepening h hactive
    obtain ⟨hsel, -, hselected⟩ := selectCommits_selects hselect
    rintro (⟨hin, -⟩ | hnew)
    · exact hold hin
    · have hin := hsel.boundary_sub w ((hshallow w).mp hnew).1
      exact hineligible ((hselected hdepth w).mp hin).eligible

/-- **When a fetch leaves its client consistent**: every want is held by somebody, and a
request by date or excluded refs supplies the wanted commits it does not select. -/
theorem plan_consistent_iff (hc : Complete odb) (hv : ClientView odb req client)
    (h : plan odb refs req = .ok p) :
    ((∀ w ∈ req.wants, Holds (received odb client p) w) ∧
        Consistent (received odb client p) (newBoundary req p)) ↔
      (∀ w ∈ req.wants, Holds client w ∨ Holds (graph odb) w) ∧
        (req.deepen.isActive = true → req.deepen.depth = none →
          BareWantsSupplied odb refs req client) := by
  cases hactive : req.deepen.isActive with
  | false =>
      obtain ⟨_, -, hobjects, -, -⟩ := plan_plain h hactive
      rw [hv.wants_held fun x hw hn => (hobjects x).mpr (Or.inl ⟨hw, hn⟩)]
      refine and_congr_right fun _ => ⟨fun _ hn => absurd hn (by decide), fun _ => ?_⟩
      exact hv.plain_consistent hc h hactive
  | true =>
      obtain ⟨_, _, _, _, -, -, -, hobjects, -, -⟩ := plan_deepening h hactive
      have hwants := hv.wants_held fun x hw hn => (hobjects x).mpr (Or.inl ⟨hw, hn⟩)
      constructor
      · rintro ⟨hheld, hcons⟩
        exact ⟨hwants.mp hheld, fun _ hdepth =>
          hv.bareWantsSupplied hc h hactive hdepth hheld hcons⟩
      · rintro ⟨hsome, hbare⟩
        refine ⟨hwants.mpr hsome, hv.deepening_consistent hc h hactive ?_⟩
        intro t included boundary htips hselect w hw c hg hout
        obtain ⟨-, htaken, hselected⟩ := selectCommits_selects hselect
        -- a wanted commit is a tip, so only a walk by date can leave it out
        have htip : w ∈ t.tips := (htips.mem_tips w).mpr ⟨w, hw, peelToCommit_commit ⟨c, hg⟩⟩
        by_cases hdepth : req.deepen.depth = none
        · have hineligible : ¬ Eligible odb refs req.deepen w := fun helig =>
            hout ((hselected hdepth w).mpr ⟨w, htip, helig, .refl⟩)
          obtain ⟨htree, hparents⟩ := hbare rfl hdepth w hw c hg hineligible
          have hheld : ∀ {x}, Delivered odb refs req client x → Holds (received odb client p) x :=
            (hv.holds_received_iff hc h hactive hdepth).mpr
          refine ⟨fun x hx => hheld (htree x hx), fun hb b hbp => hheld (hparents ?_ b hbp)⟩
          intro hold
          -- nor is it taken off the old boundary
          obtain ⟨-, t', included', boundary', -, -, hselect', -, -, hunshallow⟩ :=
            plan_deepening h hactive
          obtain ⟨-, -, hselected'⟩ := selectCommits_selects hselect'
          refine hb (Or.inl ⟨hold, fun hu => hineligible ?_⟩)
          exact ((hselected' hdepth w).mp ((hunshallow w).mp hu).2.1).eligible
        · exact absurd (htaken hdepth w htip ⟨c, hg⟩) hout

end Fetch

/-! ## Fetches from a small server -/

namespace FetchSample

/-- A request for `old` and its newest commit only. -/
def deepenOne : Want := ⟨[old], [], [], ⟨some 1, none, [], false⟩⟩

/-- A request for `old` and `recent` with `deepen-since 150`. -/
def deepenSince : Want := ⟨[old, recent], [], [], ⟨none, some 150, [], false⟩⟩

/-- A client that holds nothing. -/
def emptyClient : ObjectGraph := fun _ => none

theorem complete : Complete store :=
  MemoryOdb.complete_of_isComplete (by decide +kernel)

theorem view_emptyClient {req : Want} (h : req.haves = []) : ClientView store req emptyClient where
  agrees _ _ _ hx := by cases hx
  closed have_ hh := by
    rw [h] at hh
    cases hh
  consistent := by
    refine ⟨fun a b hab => ?_, fun a c ha => by cases ha⟩
    obtain ⟨c, hc, -⟩ := hab
    cases hc

/-- A plan seen through its fields is one. -/
theorem exists_plan (req : Want) (objects shallow unshallow : List ObjectId)
    (h : (plan store noRefs req).map (fun p => (p.objects.toList, p.shallow, p.unshallow)) =
      .ok (objects, shallow, unshallow)) :
    ∃ p, plan store noRefs req = .ok p ∧ (∀ x, x ∈ p.objects ↔ x ∈ objects) ∧
      p.shallow = shallow ∧ p.unshallow = unshallow := by
  obtain ⟨p, hp, hfields⟩ := except_map_ok.mp h
  cases hfields
  exact ⟨p, hp, fun x => BTreeSet.mem_toList.symm, rfl, rfl⟩

/-- A fetch of one commit by depth leaves an empty client consistent. -/
theorem deepenOne_consistent : ∃ p, plan store noRefs deepenOne = .ok p ∧
    (∀ w ∈ deepenOne.wants, Holds (received store emptyClient p) w) ∧
    Consistent (received store emptyClient p) (newBoundary deepenOne p) := by
  obtain ⟨p, hp, -⟩ := exists_plan deepenOne [emptyTree, old] [old] [] (by decide +kernel)
  refine ⟨p, hp, (plan_consistent_iff complete (view_emptyClient rfl) hp).mpr ⟨?_, ?_⟩⟩
  · intro w hw
    obtain rfl := List.mem_singleton.mp hw
    refine Or.inr (complete.contains_iff_holds.mp ?_)
    decide
  · intro _ hdepth
    cases hdepth

/-- A fetch by date of an old and a recent commit leaves an empty client with the old
commit, off its boundary, but without that commit's parent. -/
theorem deepenSince_inconsistent : Complete store ∧ ClientView store deepenSince emptyClient ∧
    (∀ w ∈ deepenSince.wants, Holds (graph store) w) ∧
    ∃ p, plan store noRefs deepenSince = .ok p ∧
      ¬ Consistent (received store emptyClient p) (newBoundary deepenSince p) := by
  refine ⟨complete, view_emptyClient rfl, fun w hw => ?_, ?_⟩
  · refine complete.contains_iff_holds.mp ?_
    rcases List.mem_cons.mp hw with rfl | hw
    · decide
    · obtain rfl := List.mem_singleton.mp hw
      decide
  obtain ⟨p, hp, hobjects, hshallow, -⟩ := exists_plan deepenSince
    [emptyTree, recent, old] [] [] (by decide +kernel)
  refine ⟨p, hp, fun hcons => ?_⟩
  have hread : readCommit store old = .ok (some (commitAt [first] 100 111)) := by decide +kernel
  have hsent : Holds (received store emptyClient p) old := by
    refine holds_received.mpr (Or.inr ⟨(hobjects old).mpr (by simp), ?_⟩)
    rw [Holds, readCommit_some.mp hread]
    rfl
  have hold := (view_emptyClient rfl : ClientView store deepenSince emptyClient).received_agrees
    hsent (readCommit_some.mp hread)
  have hparent : Parent (received store emptyClient p) old first :=
    ⟨_, hold, List.mem_singleton_self _⟩
  have hoff : old ∉ newBoundary deepenSince p := by
    rintro (⟨h, -⟩ | h)
    · cases h
    · rw [hshallow] at h
      cases h
  rcases holds_received.mp (hcons.parents old first hparent hoff) with h | ⟨h, -⟩
  · cases h
  · exact absurd ((hobjects first).mp h) (by decide)

end FetchSample

end Puregit.Server
