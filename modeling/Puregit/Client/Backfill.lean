import Puregit.Client.Fetch
import Puregit.Walk.Missing

/-! # Completing a partial clone

A partial clone lacks objects.  To complete a tree it is scanned, what the scan lists is fetched,
and this is repeated until the scan lists nothing.  The rounds are bounded, and a round in which
nothing arrives ends them, so that the loop returns whatever the server answers:
`backfillTree_returns`.

It succeeds where a scan lists nothing.  Whether the tree is complete then is whether it can be
scanned as it is at the end.
-/
namespace Puregit.Client

/-- The request for objects by their ids. -/
def objectsRequest (advert : RefAdvertisement) (wanted : List ObjectId) (repo : Repository) :
    Except Error FetchRequest := do
  let refs ← repo.refs.list
  let agreed := advert.capabilities.negotiateFlags [str "ofs-delta", str "side-band-64k",
    str "thin-pack"]
  .ok { FetchRequest.default with
    wants := wanted
    haves := refs.toList.map Prod.snd
    capabilities := agreed.addValue (str "object-format") repo.algo.name }

/-- Asks a remote for the objects that are not in the store. -/
def askObjects (transport : Transport) (wants : List ObjectId) (repo : Repository) :
    Except Error (Option (FetchRequest × Bytes)) := do
  let wanted := wants.filter fun id => !repo.odb.contains id
  if wanted.isEmpty then .ok none
  else do
    let advert ← transport.discover
    let req ← objectsRequest advert wanted repo
    let request ← req.encode
    let response ← transport.exchange request
    .ok (some (req, response))

/-- Fetches objects by their ids; the number of objects received. -/
def fetchObjects (out : Outside) (transport : Transport) (wants : List ObjectId) :
    Exec Repository Error Nat := do
  let asked ← Exec.read (askObjects transport wants)
  match asked with
  | none => pure 0
  | some (req, response) => receive out req response

/-- How many rounds a tree may take. -/
def maxBackfillRounds : Nat := 64

/-- The rounds that are left, `n` of them; `server` is the remote as it answers in the round with
that many left. -/
def backfillRounds (out : Outside) (server : Nat → Transport) (treeId : ObjectId) :
    Nat → Nat → Exec Repository Error Nat
  | 0, _ => Exec.throw (.protocol (str "promisor backfill: exceeded the round limit"))
  | n + 1, total => do
    let missing ← Exec.read fun repo => missingTreeObjects repo.odb treeId
    if missing.isEmpty then pure total
    else do
      let received ← fetchObjects out (server n) missing
      if received = 0 then
        Exec.throw (.protocol (str "promisor backfill: remote did not provide the missing objects"))
      else backfillRounds out server treeId n (total + received)

/-- Fetches what is missing below a tree until nothing is. -/
def backfillTree (out : Outside) (server : Nat → Transport) (treeId : ObjectId) :
    Exec Repository Error Nat :=
  backfillRounds out server treeId maxBackfillRounds 0

/-! ## The rounds end -/

theorem fetchObjects_returns (out : Outside) (transport : Transport) (wants : List ObjectId)
    (repo : Repository) :
    Exec.Returns (fetchObjects out transport wants) repo fun _ _ => True := by
  refine .read_bind (fun _ _ => trivial) fun asked _ => ?_
  obtain _ | ⟨req, response⟩ := asked
  · exact .of_eq rfl trivial
  · exact (receive_returns out req response repo).mono fun _ _ _ => trivial

/-- **The rounds return**, and where they succeed a scan lists nothing. -/
theorem backfillRounds_returns (out : Outside) (server : Nat → Transport) (treeId : ObjectId)
    (n total : Nat) (repo : Repository) :
    Exec.Returns (backfillRounds out server treeId n total) repo fun r repo' =>
      r.toBool = true → missingTreeObjects repo'.odb treeId = .ok [] := by
  induction n generalizing total repo with
  | zero => exact .of_eq rfl nofun
  | succ n ih =>
    refine .read_bind (fun _ _ => nofun) fun missing hmissing => ?_
    cases missing with
    | nil => exact .of_eq rfl fun _ => hmissing
    | cons id ids =>
      refine (fetchObjects_returns out (server n) (id :: ids) repo).bind (fun _ _ _ =>
        nofun) fun received repo₁ _ => ?_
      by_cases hzero : received = 0
      · rw [if_pos hzero]
        exact .of_eq rfl nofun
      · rw [if_neg hzero]
        exact ih (total + received) repo₁

/-- **A store is scanned right, and a tree completed, exactly where the tree can be scanned.**  The
rounds return; where they succeed, everything below the tree is there if and only if the tree can
be scanned as the store then is. -/
theorem backfillTree_returns {D : Type} [ObjectDatabase D] (odb : D) (out : Outside)
    (server : Nat → Transport) (treeId : ObjectId) (repo : Repository) :
      (ListsMissing odb treeId ↔ Scannable odb treeId) ∧
      ∃ r repo', backfillTree out server treeId repo = some (r, repo') ∧
        (r.toBool = true → (TreeComplete repo'.odb treeId ↔ Scannable repo'.odb treeId)) := by
  refine ⟨listsMissing_iff odb treeId, ?_⟩
  obtain ⟨r, repo', hrun, hend⟩ := backfillRounds_returns out server treeId maxBackfillRounds 0 repo
  exact ⟨r, repo', hrun, fun hok => treeComplete_iff (hend hok)⟩

/-! ## A tree that is named as a file first -/

namespace BackfillSample
open ObjectDatabase

/-- A file that is not in the store. -/
def file : ObjectId := .filled 0x11

/-- A tree with the file. -/
def inner : Tree := ⟨[⟨.regular, bytes "x", file⟩]⟩

def innerId : ObjectId := hashObject .sha .sha1 .tree inner.serialize

/-- A tree that names it as a file and then as a tree. -/
def outer : Tree := ⟨[⟨.regular, bytes "a", innerId⟩, ⟨.tree, bytes "b", innerId⟩]⟩

def outerId : ObjectId := hashObject .sha .sha1 .tree outer.serialize

/-- A repository with the two trees. -/
def repo : Repository :=
  let repo := Repository.init .stored .sha .sha1
  { repo with odb := (write (write repo.odb .tree inner.serialize).2 .tree outer.serialize).2 }

/-- What the two trees name, and whether the file is there. -/
def view (odb : CombinedOdb) : List (Mention ObjectId) × List (Mention ObjectId) × Bool :=
  (treeMentions odb outerId, treeMentions odb innerId, contains odb file)

/-- The scan lists nothing, and completing the tree changes nothing. -/
theorem backfill_runs : missingTreeObjects repo.odb outerId = .ok [] ∧
    view repo.odb = ([.leaf innerId, .node innerId], [.leaf file], false) ∧
    ((backfillTree .sorted (fun _ =>
      FetchSample.remote (bytes "0008NAK\n" ++ packSignature ++ [0, 0, 0, 2, 0, 0, 0, 0] ++
      List.replicate 20 0)) outerId repo).map fun r => (r.1.toBool, view r.2.odb)) =
        some (true, [.leaf innerId, .node innerId], [.leaf file], false) := by
  decide +kernel

theorem below_outer {odb : CombinedOdb}
    (h : view odb = ([.leaf innerId, .node innerId], [.leaf file], false)) :
    BelowTree odb outerId file ∧ contains odb file = false := by
  obtain ⟨houter, h⟩ := Prod.mk.inj h
  obtain ⟨hinner, habsent⟩ := Prod.mk.inj h
  have hnode : Mention.Mentioned (treeMentions odb) (fun _ => True) outerId (.node innerId) :=
    .child .root trivial (by rw [houter]; simp)
  exact ⟨⟨_, .child hnode trivial (by rw [hinner]; exact List.mem_singleton_self _), rfl⟩, habsent⟩

/-- **A subtree is hidden** from the scan, and a backfill succeeds without its file. -/
theorem not_backfill_complete :
    (¬∀ (odb : CombinedOdb) (treeId : ObjectId), ListsMissing odb treeId) ∧
    ¬∀ (out : Outside) (server : Nat → Transport) (treeId : ObjectId) (repo : Repository),
      ∃ r repo', backfillTree out server treeId repo = some (r, repo') ∧
        (r.toBool = true → TreeComplete repo'.odb treeId) := by
  obtain ⟨hscan, hview, hrun⟩ := backfill_runs
  constructor
  · intro h
    obtain ⟨missing, hok, -, hmem⟩ := h repo.odb outerId
    cases hscan.symm.trans hok
    obtain ⟨hbelow, habsent⟩ := below_outer hview
    exact List.not_mem_nil ((hmem file).mpr ⟨habsent, hbelow⟩)
  · intro h
    obtain ⟨r, repo', hrun', hcomplete⟩ := h .sorted _ outerId repo
    rw [hrun', Option.map_some, Option.some.injEq] at hrun
    obtain ⟨hok, hview'⟩ := Prod.mk.inj hrun
    obtain ⟨hbelow, habsent⟩ := below_outer hview'
    rw [hcomplete hok file hbelow] at habsent
    cases habsent

end BackfillSample

end Puregit.Client
