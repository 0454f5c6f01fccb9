import Puregit.Pack.Sequence

/-! # The two readers of a pack

Where `explodePackPrefix` decodes a pack, `Pack.readAtWith` reads an entry of it as the
same object, if the chain of bases it follows ends soon enough.  The argument is an
induction along that chain.  `Sound` is what the front-to-back reader keeps: every object
it has recorded was decoded from the entry at its offset with the objects before it.

The two readers may take different bases for one delta: an id that was looked up outside
of the pack when the delta was decoded may name an entry further on.  They agree if an id
names one object only, and if following such an entry does not lead back.
-/
namespace Puregit
namespace Pack

variable {z : Zlib} {h : Hasher} {algo : HashAlgo} {data : Bytes} {resolve : ExternalResolver}

/-! ## What the front-to-back reader keeps -/

theorem parseEntryHeaderAt_pos {offset size hdrLen : Nat} {ptype : PackObjectType}
    (hp : parseEntryHeaderAt data offset = .ok (ptype, size, hdrLen)) : 0 < hdrLen := by
  rw [parseEntryHeaderAt] at hp
  split at hp
  · cases hp
  · obtain ⟨t, -, hp⟩ := except_bind_ok.mp hp
    split at hp
    · cases hp
      exact Nat.one_pos
    · obtain ⟨⟨size', left⟩, -, hp⟩ := except_bind_ok.mp hp
      cases hp
      omega

theorem EntryAt.lt {offset next : Nat} {e : Pack.Entry} (hat : EntryAt z algo data offset e next) :
    offset < next := by
  cases hat with
  | whole header =>
    have hpos := parseEntryHeaderAt_pos header
    omega
  | ofs header =>
    have hpos := parseEntryHeaderAt_pos header
    omega
  | ref header =>
    have hpos := parseEntryHeaderAt_pos header
    omega

/-- The ids of a reader name objects it has at some offset. -/
def NamesObjects (h : Hasher) (algo : HashAlgo) (s : Exploded) : Prop :=
  ∀ id r, s.byId.get? id = some r → hashObject h algo r.1 r.2 = id ∧
    ∃ o, s.byOffset.get? o = some r

/-- `s'` is an earlier state of the reader `s`. -/
structure Earlier (h : Hasher) (algo : HashAlgo) (s' s : Exploded) : Prop where
  byOffset : ∀ o r, s'.byOffset.get? o = some r → o < s'.offset ∧ s.byOffset.get? o = some r
  byId : ∀ id, s.byId.get? id = none → s'.byId.get? id = none
  names : NamesObjects h algo s'

/-- Every object of a reader was decoded from the entry at its offset. -/
structure Sound (z : Zlib) (h : Hasher) (algo : HashAlgo) (resolve : ExternalResolver)
    (data : Bytes) (s : Exploded) : Prop where
  lt : ∀ o r, s.byOffset.get? o = some r → o < s.offset
  results : ∀ o r, s.byOffset.get? o = some r → (hashObject h algo r.1 r.2, r) ∈ s.results
  names : NamesObjects h algo s
  decoded : ∀ o r, s.byOffset.get? o = some r → ∃ s' e next, s'.offset = o ∧
    EntryAt z algo data o e next ∧ e.object resolve s' = .ok r ∧ Earlier h algo s' s

theorem sound_start : Sound z h algo resolve data Exploded.start := by
  have hnone : ∀ o, Exploded.start.byOffset.get? o = none := fun o => rfl
  refine ⟨?_, ?_, ?_, ?_⟩
  · intro o r ho
    cases (hnone o).symm.trans ho
  · intro o r ho
    cases (hnone o).symm.trans ho
  · intro id r hid
    cases hid
  · intro o r ho
    cases (hnone o).symm.trans ho

/-- A decoded object is recorded. -/
theorem Sound.record {s : Exploded} (hs : Sound z h algo resolve data s)
    {e : Pack.Entry} {next : Nat} {ty : ObjectType} {content : Bytes}
    (hat : EntryAt z algo data s.offset e next) (hobj : e.object resolve s = .ok (ty, content)) :
    Sound z h algo resolve data (s.record (hashObject h algo ty content) ty content next) ∧
      Earlier h algo s (s.record (hashObject h algo ty content) ty content next) := by
  have hlt := hat.lt
  have hoffset : ∀ o, (s.record (hashObject h algo ty content) ty content next).byOffset.get? o =
      if o = s.offset then some (ty, content) else s.byOffset.get? o :=
    fun o => BTreeMap.get?_insert _ _ _ _
  have hid : ∀ id, (s.record (hashObject h algo ty content) ty content next).byId.get? id =
      if id = hashObject h algo ty content then some (ty, content) else s.byId.get? id := by
    intro id
    have hget := BTreeMap.get?_insert s.byId (hashObject h algo ty content) id (ty, content)
    split at hget
    · next heq => rw [if_pos heq, ← hget, Exploded.record]
    · next hne => rw [if_neg hne, ← hget, Exploded.record]
  have hkeep : ∀ o r, s.byOffset.get? o = some r →
      (s.record (hashObject h algo ty content) ty content next).byOffset.get? o = some r := by
    intro o r ho
    have hne : o ≠ s.offset := by
      have := hs.lt o r ho
      omega
    rw [hoffset, if_neg hne, ho]
  have hnone : ∀ id, (s.record (hashObject h algo ty content) ty content next).byId.get? id = none →
      s.byId.get? id = none := by
    intro id hn
    rw [hid] at hn
    split at hn
    · cases hn
    · exact hn
  have hearlier : Earlier h algo s
      (s.record (hashObject h algo ty content) ty content next) :=
    ⟨fun o r ho => ⟨hs.lt o r ho, hkeep o r ho⟩, hnone, hs.names⟩
  have hcases : ∀ o r, (s.record (hashObject h algo ty content) ty content next).byOffset.get? o =
      some r → (o = s.offset ∧ r = (ty, content)) ∨ s.byOffset.get? o = some r := by
    intro o r ho
    rw [hoffset] at ho
    split at ho
    · next heq =>
      cases ho
      exact Or.inl ⟨heq, rfl⟩
    · exact Or.inr ho
  refine ⟨⟨?_, ?_, ?_, ?_⟩, hearlier⟩
  · intro o r ho
    show o < next
    rcases hcases o r ho with ⟨rfl, -⟩ | ho
    · exact hlt
    · have := hs.lt o r ho
      omega
  · intro o r ho
    rcases hcases o r ho with ⟨-, rfl⟩ | ho
    · exact List.mem_append_right _ List.mem_cons_self
    · exact List.mem_append_left _ (hs.results o r ho)
  · intro id r hr
    rw [hid] at hr
    split at hr
    · next heq =>
      cases hr
      exact ⟨heq.symm, s.offset, by rw [hoffset, if_pos rfl]⟩
    · obtain ⟨hhash, o, ho⟩ := hs.names id r hr
      exact ⟨hhash, o, hkeep o r ho⟩
  · intro o r ho
    rcases hcases o r ho with ⟨rfl, rfl⟩ | ho
    · exact ⟨s, e, next, rfl, hat, hobj, hearlier⟩
    · obtain ⟨s', e', next', hs', hat', hobj', hearlier'⟩ := hs.decoded o r ho
      refine ⟨s', e', next', hs', hat', hobj', ?_, ?_, hearlier'.names⟩
      · intro o' r' ho'
        obtain ⟨hlt', hget⟩ := hearlier'.byOffset o' r' ho'
        exact ⟨hlt', hkeep o' r' hget⟩
      · intro id hn
        exact hearlier'.byId id (hnone id hn)

/-! ## Runs -/

/-- The state after `k` entries, the next of which is decoded to an object. -/
structure Decodes (z : Zlib) (h : Hasher) (algo : HashAlgo) (resolve : ExternalResolver)
    (data : Bytes) (results : List ExplodedObject) (s : Exploded) (o : ExplodedObject) : Prop where
  sound : Sound z h algo resolve data s
  earlier : ∀ x ∈ s.results, x ∈ results
  mem : o ∈ results
  id : o.1 = hashObject h algo o.2.1 o.2.2
  entry : ∃ e next, EntryAt z algo data s.offset e next ∧ e.object resolve s = .ok o.2

theorem explodeEntries_succ {n next : Nat} {s : Exploded} {ty : ObjectType} {content : Bytes}
    (hdec : decodeEntry z algo resolve data s = .ok (ty, content, next)) :
    explodeEntries z h algo resolve data (n + 1) s = explodeEntries z h algo resolve data n
      (s.record (hashObject h algo ty content) ty content next) := by
  rw [explodeEntries, hdec]
  rfl

theorem explodePackPrefix_of_entries {s : Exploded}
    (hhead : ¬ (data.length < 12 ∨ data.take 4 ≠ packSignature))
    (hrun : explodeEntries z h algo resolve data (ObjectId.natOfBytes ((data.drop 8).take 4))
      Exploded.start = .ok s) (hlen : ¬ data.length < s.offset + algo.rawLen) :
    explodePackPrefix z h data algo resolve = .ok (s.results, s.offset + algo.rawLen) := by
  rw [explodePackPrefix, if_neg hhead, hrun]
  show (if data.length < s.offset + algo.rawLen then _ else _) = _
  rw [if_neg hlen]

/-- Every entry of a decoded pack decodes from a sound state. -/
theorem decodes_of_explodeEntries : ∀ {k count : Nat} {s₀ s s' : Exploded} {o : ExplodedObject},
    Sound z h algo resolve data s₀ →
    explodeEntries z h algo resolve data count s₀ = .ok s' →
    explodeEntries z h algo resolve data k s₀ = .ok s →
    s'.results[s₀.results.length + k]? = some o →
    Decodes z h algo resolve data s'.results s o := by
  intro k
  induction k with
  | zero =>
    intro count s₀ s s' o hs hrun hk ho
    cases hk
    cases count with
    | zero =>
      cases hrun
      rw [Nat.add_zero, List.getElem?_eq_none (le_refl _)] at ho
      cases ho
    | succ count =>
      obtain ⟨⟨ty, content, next⟩, hdec, hrun⟩ := except_bind_ok.mp hrun
      obtain ⟨e, hat, hobj⟩ := decodeEntry_ok.mp hdec
      obtain ⟨more, -, hmore⟩ := explodeEntries_results hrun
      have hresults : s'.results =
          s₀.results ++ ((hashObject h algo ty content, ty, content) :: more) := by
        rw [hmore]
        show s₀.results ++ [_] ++ more = _
        rw [List.append_assoc, List.singleton_append]
      rw [hresults, Nat.add_zero, List.getElem?_append_right (le_refl _), Nat.sub_self,
        List.getElem?_cons_zero] at ho
      cases ho
      refine ⟨hs, ?_, ?_, rfl, e, next, hat, hobj⟩
      · intro x hx
        rw [hresults]
        exact List.mem_append_left _ hx
      · rw [hresults]
        exact List.mem_append_right _ List.mem_cons_self
  | succ k ih =>
    intro count s₀ s s' o hs hrun hk ho
    cases count with
    | zero =>
      cases hrun
      rw [List.getElem?_eq_none (Nat.le_add_right _ _)] at ho
      cases ho
    | succ count =>
      obtain ⟨⟨ty, content, next⟩, hdec, hrun⟩ := except_bind_ok.mp hrun
      obtain ⟨⟨ty', content', next'⟩, hdec', hk⟩ := except_bind_ok.mp hk
      cases hdec.symm.trans hdec'
      obtain ⟨e, hat, hobj⟩ := decodeEntry_ok.mp hdec
      have hlen : (s₀.record (hashObject h algo ty content) ty content next).results.length =
          s₀.results.length + 1 := by
        show (s₀.results ++ [_]).length = _
        rw [List.length_append, List.length_singleton]
      exact ih (hs.record hat hobj).1 hrun hk (by rwa [hlen, Nat.add_assoc, Nat.add_comm 1])

/-! ## The chain -/

/-- The chain of bases from the entry at `cur`, in which a base by id is the entry `locate`
gives for it, ends after `n` deltas. -/
inductive ChainEnds (z : Zlib) (algo : HashAlgo) (data : Bytes) (locate : ObjectId → Option Nat) :
    Nat → Nat → Prop
  | whole {cur next : Nat} {ty : ObjectType} {content : Bytes}
      (entry : EntryAt z algo data cur (.whole ty content) next) :
      ChainEnds z algo data locate cur 0
  | ofs {cur next rel n : Nat} {delta : Bytes}
      (entry : EntryAt z algo data cur (.ofs rel delta) next)
      (base : ChainEnds z algo data locate (cur - rel) n) :
      ChainEnds z algo data locate cur (n + 1)
  | external {cur next : Nat} {id : ObjectId} {delta : Bytes}
      (entry : EntryAt z algo data cur (.ref id delta) next) (absent : locate id = none) :
      ChainEnds z algo data locate cur 1
  | ref {cur next offset n : Nat} {id : ObjectId} {delta : Bytes}
      (entry : EntryAt z algo data cur (.ref id delta) next) (found : locate id = some offset)
      (base : ChainEnds z algo data locate offset n) :
      ChainEnds z algo data locate cur (n + 1)

/-- A chain has one length. -/
theorem ChainEnds.unique {locate : ObjectId → Option Nat} {cur n m : Nat}
    (hn : ChainEnds z algo data locate cur n) (hm : ChainEnds z algo data locate cur m) :
    n = m := by
  induction hn generalizing m with
  | whole entry =>
    cases hm with
    | whole => rfl
    | ofs entry' => cases (entry.unique entry').1
    | external entry' => cases (entry.unique entry').1
    | ref entry' => cases (entry.unique entry').1
  | ofs entry base ih =>
    cases hm with
    | whole entry' => cases (entry.unique entry').1
    | ofs entry' base' =>
      cases (entry.unique entry').1
      rw [ih base']
    | external entry' => cases (entry.unique entry').1
    | ref entry' => cases (entry.unique entry').1
  | external entry absent =>
    cases hm with
    | whole entry' => cases (entry.unique entry').1
    | ofs entry' => cases (entry.unique entry').1
    | external => rfl
    | ref entry' found' =>
      cases (entry.unique entry').1
      cases absent.symm.trans found'
  | ref entry found base ih =>
    cases hm with
    | whole entry' => cases (entry.unique entry').1
    | ofs entry' => cases (entry.unique entry').1
    | external entry' absent' =>
      cases (entry.unique entry').1
      cases found.symm.trans absent'
    | ref entry' found' base' =>
      cases (entry.unique entry').1
      cases found.symm.trans found'
      rw [ih base']

theorem applyAll_cons (content delta : Bytes) (deltas : List Bytes) :
    applyAll content (delta :: deltas) = applyAll content deltas >>= fun c =>
      applyDelta c delta := by
  rw [applyAll, List.reverse_cons, List.foldlM_append]
  simp only [List.foldlM_cons, List.foldlM_nil, bind_pure]
  rfl

/-! ## What the walk does at an entry -/

section
variable {p : Pack} {locate : ObjectId → Option Nat} {left cur next : Nat} {deltas : List Bytes}
  {visited : BTreeSet Nat}

theorem walkChain_whole {ty : ObjectType} {content : Bytes}
    (entry : EntryAt z p.algo p.data cur (.whole ty content) next)
    (hnew : ¬visited.contains cur = true) :
    walkChain z p locate resolve (left + 1) deltas visited cur = .ok (ty, content, deltas) := by
  cases entry with
  | whole header body =>
    rw [walkChain, if_neg hnew, header]
    show (z.inflateCapped _ _ >>= _) = _
    rw [Zlib.inflateExact_ok body]
    rfl

/-- At a delta to an earlier entry the walk goes on there. -/
theorem walkChain_ofs {rel : Nat} {delta : Bytes}
    (entry : EntryAt z p.algo p.data cur (.ofs rel delta) next)
    (hnew : ¬visited.contains cur = true) (hpos : rel ≠ 0) (hle : rel ≤ cur) :
    walkChain z p locate resolve (left + 1) deltas visited cur =
      walkChain z p locate resolve left (deltas ++ [delta]) (visited.insert cur) (cur - rel) := by
  cases entry with
  | ofs header base body =>
    rw [walkChain, if_neg hnew, header]
    show (readOffsetVarint _ _ >>= _) = _
    rw [base]
    show (if rel = 0 then _ else if cur < rel then _ else _) = _
    rw [if_neg hpos, if_neg (Nat.not_lt.mpr hle)]
    show (z.inflateCapped _ _ >>= _) = _
    rw [Zlib.inflateExact_ok body]
    rfl

/-- At a delta to an id the walk goes on where the id is, or ends outside of the pack. -/
theorem walkChain_ref {id : ObjectId} {delta : Bytes}
    (entry : EntryAt z p.algo p.data cur (.ref id delta) next)
    (hnew : ¬visited.contains cur = true) :
    walkChain z p locate resolve (left + 1) deltas visited cur = match locate id with
      | some offset =>
        walkChain z p locate resolve left (deltas ++ [delta]) (visited.insert cur) offset
      | none => resolve id >>= fun b => .ok (b.1, b.2, deltas ++ [delta]) := by
  cases entry with
  | ref header base body =>
    rw [walkChain, if_neg hnew, header]
    show (readBaseId _ _ _ >>= _) = _
    rw [base]
    show (z.inflateCapped _ _ >>= _) = _
    rw [Zlib.inflateExact_ok body]
    rfl

end

/-! ## Agreement -/

/-- `locate` maps exactly the ids of the entries before the reader to their offsets. -/
structure Locates (h : Hasher) (algo : HashAlgo) (s : Exploded) (locate : ObjectId → Option Nat) :
    Prop where
  found : ∀ id o, locate id = some o → ∃ r, s.byOffset.get? o = some r ∧
    hashObject h algo r.1 r.2 = id
  absent : ∀ id, locate id = none → s.byId.get? id = none

/-- An id names one object, among those of a pack and outside of it. -/
structure OneObject (resolve : ExternalResolver) (results : List ExplodedObject) : Prop where
  within : ∀ o ∈ results, ∀ o' ∈ results, o.1 = o'.1 → o.2 = o'.2
  outside : ∀ o ∈ results, ∀ r, resolve o.1 = .ok r → r = o.2

/-- Walking the chain of an entry and applying its deltas gives the object decoded there. -/
theorem walkChain_of_chainEnds {p : Pack} (hdata : p.data = data) (halgo : p.algo = algo)
    {results : List ExplodedObject} {s : Exploded} (hs : Sound z h algo resolve data s)
    (hres : ∀ x ∈ s.results, x ∈ results) (hone : OneObject resolve results)
    {locate : ObjectId → Option Nat} (hl : Locates h algo s locate) {cur n : Nat}
    (hc : ChainEnds z algo data locate cur n) : ∀ {s' : Exploded} {e : Pack.Entry} {next : Nat}
    {r : ObjectType × Bytes}, s'.offset = cur → EntryAt z algo data cur e next →
    e.object resolve s' = .ok r → Earlier h algo s' s → ∀ {left : Nat} (deltas : List Bytes)
    {visited : BTreeSet Nat}, n ≤ left →
    (∀ v ∈ visited, ∃ m, n < m ∧ ChainEnds z algo data locate v m) →
    ∃ content ds, walkChain z p locate resolve (left + 1) deltas visited cur =
      .ok (r.1, content, deltas ++ ds) ∧ applyAll content ds = .ok r.2 := by
  subst hdata halgo
  -- an offset on the chain has not been visited: its chain would be shorter than itself
  have hfresh : ∀ {cur n : Nat} {visited : BTreeSet Nat}, ChainEnds z p.algo p.data locate cur n →
      (∀ v ∈ visited, ∃ m, n < m ∧ ChainEnds z p.algo p.data locate v m) →
      ¬ visited.contains cur = true := by
    intro cur n visited hc hv hmem
    obtain ⟨m, hlt, hm⟩ := hv cur hmem
    have := hc.unique hm
    omega
  have hvisit : ∀ {cur n : Nat} {visited : BTreeSet Nat},
      ChainEnds z p.algo p.data locate cur (n + 1) →
      (∀ v ∈ visited, ∃ m, n + 1 < m ∧ ChainEnds z p.algo p.data locate v m) →
      ∀ v ∈ visited.insert cur, ∃ m, n < m ∧ ChainEnds z p.algo p.data locate v m := by
    intro cur n visited hc hv v hmem
    rcases BTreeSet.mem_insert.mp hmem with rfl | hmem
    · exact ⟨n + 1, Nat.lt_succ_self n, hc⟩
    · obtain ⟨m, hlt, hm⟩ := hv v hmem
      exact ⟨m, by omega, hm⟩
  induction hc with
  | whole entry =>
    intro s' e next r _ hat hobj _ left deltas visited hle hv
    obtain ⟨rfl, -⟩ := entry.unique hat
    cases hobj
    refine ⟨_, [], ?_, rfl⟩
    rw [walkChain_whole entry (hfresh (.whole entry) hv), List.append_nil]
  | @ofs cur next' rel n delta entry base ih =>
    intro s' e next r hoff hat hobj hearlier left deltas visited hle hv
    obtain ⟨rfl, -⟩ := entry.unique hat
    have hnew := hfresh (.ofs entry base) hv
    have hvisited := hvisit (.ofs entry base) hv
    rw [Pack.Entry.object] at hobj
    split at hobj
    · cases hobj
    next hrel =>
    obtain ⟨b, hbase, hobj⟩ := except_bind_ok.mp hobj
    obtain ⟨target, htarget, hobj⟩ := except_bind_ok.mp hobj
    cases hobj
    have hget : s'.byOffset.get? (cur - rel) = some b := by
      rw [Exploded.baseAt, hoff] at hbase
      split at hbase
      · next hsome =>
        cases hbase
        exact hsome
      · cases hbase
    obtain ⟨hlt, hsget⟩ := hearlier.byOffset _ _ hget
    obtain ⟨s₂, e₂, next₂, hoff₂, hat₂, hobj₂, hearlier₂⟩ := hs.decoded _ _ hsget
    obtain ⟨left, rfl⟩ : ∃ m, left = m + 1 := ⟨left - 1, by omega⟩
    obtain ⟨content, ds, hwalk, happly⟩ := ih hoff₂ hat₂ hobj₂ hearlier₂ (deltas ++ [delta])
      (by omega : n ≤ left) hvisited
    refine ⟨content, delta :: ds, ?_, ?_⟩
    · rw [walkChain_ofs entry hnew (by omega) (by omega), hwalk, List.append_assoc,
        List.singleton_append]
    · rw [applyAll_cons, happly]
      exact htarget
  | @external cur next' id delta entry absent =>
    intro s' e next r hoff hat hobj hearlier left deltas visited hle hv
    obtain ⟨rfl, -⟩ := entry.unique hat
    have hnew := hfresh (.external entry absent) hv
    obtain ⟨b, hbase, hobj⟩ := except_bind_ok.mp hobj
    obtain ⟨target, htarget, hobj⟩ := except_bind_ok.mp hobj
    cases hobj
    have hresolve : resolve id = .ok b := by
      rw [Exploded.baseOf, hearlier.byId id (hl.absent id absent)] at hbase
      exact hbase
    refine ⟨b.2, [delta], ?_, ?_⟩
    · rw [walkChain_ref entry hnew, absent]
      show (resolve id >>= _) = _
      rw [hresolve]
      rfl
    · rw [applyAll_cons]
      exact htarget
  | @ref cur next' offset n id delta entry found base ih =>
    intro s' e next r hoff hat hobj hearlier left deltas visited hle hv
    obtain ⟨rfl, -⟩ := entry.unique hat
    have hnew := hfresh (.ref entry found base) hv
    have hvisited := hvisit (.ref entry found base) hv
    obtain ⟨b, hbase, hobj⟩ := except_bind_ok.mp hobj
    obtain ⟨target, htarget, hobj⟩ := except_bind_ok.mp hobj
    cases hobj
    obtain ⟨r₂, hget, hhash⟩ := hl.found id offset found
    have hmem : (id, r₂) ∈ results := by
      have := hres _ (hs.results offset r₂ hget)
      rwa [hhash] at this
    -- the base the delta was decoded with is the object at the located entry
    have hsame : b = r₂ := by
      rw [Exploded.baseOf] at hbase
      split at hbase
      · next hsome =>
        cases hbase
        obtain ⟨hid, o, ho⟩ := hearlier.names id b hsome
        obtain ⟨-, hso⟩ := hearlier.byOffset o b ho
        have hmem' := hres _ (hs.results o b hso)
        rw [hid] at hmem'
        exact hone.within _ hmem' _ hmem rfl
      · exact hone.outside _ hmem b hbase
    subst hsame
    obtain ⟨s₂, e₂, next₂, hoff₂, hat₂, hobj₂, hearlier₂⟩ := hs.decoded _ _ hget
    obtain ⟨left, rfl⟩ : ∃ m, left = m + 1 := ⟨left - 1, by omega⟩
    obtain ⟨content, ds, hwalk, happly⟩ := ih hoff₂ hat₂ hobj₂ hearlier₂ (deltas ++ [delta])
      (by omega : n ≤ left) hvisited
    refine ⟨content, delta :: ds, ?_, ?_⟩
    · rw [walkChain_ref entry hnew, found]
      show walkChain z p locate resolve (left + 1) _ _ _ = _
      rw [hwalk, List.append_assoc, List.singleton_append]
    · rw [applyAll_cons, happly]
      exact htarget

/-- **The readers agree.**  Whatever bytes the front-to-back reader accepts, the entry after
`k` others is read from its offset as the object it was decoded to, with `locate` giving the
offsets of exactly the ids before it and with the same objects outside of the pack: if an id
names one object only, and the chain of bases from the entry ends after 10000 deltas or
fewer. -/
theorem readAtWith_of_explode {results : List ExplodedObject} {consumed : Nat} {p : Pack}
    (hx : explodePackPrefix z h data algo resolve = .ok (results, consumed))
    (hp : Pack.new data algo = .ok p) {k : Nat} {s : Exploded} {o : ExplodedObject}
    (hs : explodeEntries z h algo resolve data k Exploded.start = .ok s) (ho : results[k]? = some o)
    {locate : ObjectId → Option Nat} (hl : Locates h algo s locate)
    (hone : OneObject resolve results) {n : Nat} (hc : ChainEnds z algo data locate s.offset n)
    (hn : n ≤ maxDeltaChainDepth) :
    p.readAtWith z s.offset locate resolve = .ok o.2 := by
  have hpack : p.data = data ∧ p.algo = algo := by
    rw [Pack.new] at hp
    split_ifs at hp
    simp only at hp
    split at hp
    · cases hp
    · cases hp
      exact ⟨rfl, rfl⟩
  rw [explodePackPrefix] at hx
  split_ifs at hx
  obtain ⟨s', hrun, hx⟩ := except_bind_ok.mp hx
  split_ifs at hx
  cases hx
  have hdec := decodes_of_explodeEntries sound_start hrun hs (by
    show s'.results[0 + k]? = _
    rwa [Nat.zero_add])
  obtain ⟨e, next, hat, hobj⟩ := hdec.entry
  have hself : Earlier h algo s s :=
    ⟨fun i r hi => ⟨hdec.sound.lt i r hi, hi⟩, fun id hi => hi, hdec.sound.names⟩
  obtain ⟨content, ds, hwalk, happly⟩ := walkChain_of_chainEnds hpack.1 hpack.2 hdec.sound
    hdec.earlier hone hl hc rfl hat hobj hself [] hn
    (fun v (hv : v ∈ (BTreeSet.empty : BTreeSet Nat)) => absurd hv (BTreeSet.not_mem_empty v))
  rw [readAtWith, hwalk]
  show (applyAll content ([] ++ ds) >>= _) = _
  rw [List.nil_append, happly]
  rfl

end Pack

/-! ## A pack whose bases go round -/

namespace PackSample
open Pack PackWriter

/-- The id of a blob. -/
@[irreducible] def blobId (content : Bytes) : ObjectId := hashObject Hasher.sha .sha1 .blob content

/-- A delta that inserts one byte. -/
def insertOne (b : UInt8) : Bytes := [1, 1, 1, b]

/-- The entry of a one-byte blob, as a delta against another. -/
def refEntry (base : Bytes) (b : UInt8) : Bytes :=
  entryHeader 7 4 ++ ((blobId base).bytes ++ (Zlib.blockHeader 4 ++
    (insertOne b ++ Zlib.adler32 (insertOne b))))

/-- Three blobs: `y` from `x`, which is outside of the pack, then `x` from `y` and `z` from
`y`. -/
def roundBody : Bytes :=
  packHeader 3 ++ (refEntry [120] 121 ++ (refEntry [121] 120 ++ refEntry [121] 122))

/-- The pack of the three. -/
def roundPack : Bytes := roundBody ++ Hasher.sha.digest .sha1 roundBody

/-- The object outside of the pack. -/
def outside : ExternalResolver := fun id =>
  if id = blobId [120] then .ok (.blob, [120]) else .error (objectNotFound id)

/-- The reader after the first entry. -/
def afterOne : Exploded := Exploded.start.record (blobId [121]) .blob [121] 48

/-- The reader after the second entry. -/
def afterTwo : Exploded := afterOne.record (blobId [120]) .blob [120] 84

/-- How the parts of the pack decode. -/
theorem round_decodes :
    decodeEntry Zlib.stored .sha1 outside roundPack Exploded.start = .ok (.blob, [121], 48) ∧
    decodeEntry Zlib.stored .sha1 outside roundPack afterOne = .ok (.blob, [120], 84) ∧
    decodeEntry Zlib.stored .sha1 outside roundPack afterTwo = .ok (.blob, [122], 120) ∧
    ¬ (roundPack.length < 12 ∨ roundPack.take 4 ≠ packSignature) ∧
    ObjectId.natOfBytes ((roundPack.drop 8).take 4) = 3 ∧ roundPack.length = 140 := by
  decide +kernel

/-- What the pack explodes to. -/
def roundObjects : List ExplodedObject :=
  [(blobId [121], .blob, [121]), (blobId [120], .blob, [120]), (blobId [122], .blob, [122])]

theorem afterOne_eq :
    Exploded.start.record (hashObject Hasher.sha .sha1 .blob [121]) .blob [121] 48 =
    afterOne := by
  rw [afterOne, blobId]

theorem afterTwo_eq : afterOne.record (hashObject Hasher.sha .sha1 .blob [120]) .blob [120] 84 =
    afterTwo := by
  rw [afterTwo, blobId]

theorem explode_first :
    explodeEntries Zlib.stored Hasher.sha .sha1 outside roundPack 1 Exploded.start =
      .ok afterOne := by
  obtain ⟨hfirst, -⟩ := round_decodes
  rw [explodeEntries_succ hfirst, afterOne_eq, explodeEntries]

theorem explode_second :
    explodeEntries Zlib.stored Hasher.sha .sha1 outside roundPack 2 Exploded.start =
      .ok afterTwo := by
  obtain ⟨hfirst, hsecond, -⟩ := round_decodes
  rw [explodeEntries_succ hfirst, afterOne_eq, explodeEntries_succ hsecond, afterTwo_eq,
    explodeEntries]

theorem explode_round : explodePackPrefix Zlib.stored Hasher.sha roundPack .sha1 outside =
    .ok (roundObjects, 140) := by
  obtain ⟨hfirst, hsecond, hthird, hhead, hcount, hlen⟩ := round_decodes
  have hrun : explodeEntries Zlib.stored Hasher.sha .sha1 outside roundPack 3 Exploded.start =
      .ok (afterTwo.record (blobId [122]) .blob [122] 120) := by
    rw [explodeEntries_succ hfirst, afterOne_eq, explodeEntries_succ hsecond, afterTwo_eq,
      explodeEntries_succ hthird, explodeEntries, blobId]
  rw [← hcount] at hrun
  exact explodePackPrefix_of_entries hhead hrun (by
    rw [hlen]
    decide)

/-- The pack, as `Pack.new` takes it. -/
def round : Pack := ⟨roundPack, .sha1, 3⟩

/-- The pack opens, and the ids of the blobs differ. -/
theorem round_opens : Pack.new roundPack .sha1 = .ok round ∧
    blobId [120] ≠ blobId [121] ∧ blobId [120] ≠ blobId [122] ∧ blobId [121] ≠ blobId [122] := by
  decide +kernel

theorem oneObject_round : OneObject outside roundObjects := by
  obtain ⟨-, hxy, hxz, hyz⟩ := round_opens
  constructor
  · intro o ho o' ho' hid
    simp only [roundObjects, List.mem_cons, List.not_mem_nil, or_false] at ho ho'
    rcases ho with rfl | rfl | rfl <;> rcases ho' with rfl | rfl | rfl <;>
      first | rfl | exact absurd hid ‹_› | exact absurd hid.symm ‹_›
  · intro o ho r hr
    rw [outside] at hr
    split at hr
    · next hid =>
      cases hr
      simp only [roundObjects, List.mem_cons, List.not_mem_nil, or_false] at ho
      rcases ho with rfl | rfl | rfl
      · exact absurd hid.symm hxy
      · rfl
      · exact absurd hid.symm hxz
    · cases hr

/-- The offsets of the ids before the second entry. -/
def locateOne : ObjectId → Option Nat := fun id => if id = blobId [121] then some 12 else none

/-- The offsets of the ids before the third entry. -/
def locateTwo : ObjectId → Option Nat := fun id =>
  if id = blobId [121] then some 12 else if id = blobId [120] then some 48 else none

theorem locates_one : Locates Hasher.sha .sha1 afterOne locateOne := by
  constructor
  · intro id o ho
    rw [locateOne] at ho
    split at ho
    · next hid =>
      cases ho
      exact ⟨(.blob, [121]), rfl, by rw [hid, blobId]⟩
    · cases ho
  · intro id ho
    rw [locateOne] at ho
    split at ho
    · cases ho
    · next hid =>
      show (Exploded.start.byId.insert _ _).get? id = none
      rw [BTreeMap.get?_insert, if_neg hid]
      rfl

theorem locates_two : Locates Hasher.sha .sha1 afterTwo locateTwo := by
  constructor
  · intro id o ho
    rw [locateTwo] at ho
    split at ho
    · next hid =>
      cases ho
      exact ⟨(.blob, [121]), rfl, by rw [hid, blobId]⟩
    · split at ho
      · next hid =>
        cases ho
        exact ⟨(.blob, [120]), rfl, by rw [hid, blobId]⟩
      · cases ho
  · intro id ho
    rw [locateTwo] at ho
    split at ho
    · cases ho
    · next hy =>
      split at ho
      · cases ho
      · next hx =>
        show (afterOne.byId.insert _ _).get? id = none
        rw [BTreeMap.get?_insert, if_neg hx]
        show (Exploded.start.byId.insert _ _).get? id = none
        rw [BTreeMap.get?_insert, if_neg hy]
        rfl

/-- The first two entries are deltas against blobs that are named. -/
theorem entries_round :
    EntryAt Zlib.stored .sha1 roundPack 12 (.ref (blobId [120]) (insertOne 121)) 48 ∧
    EntryAt Zlib.stored .sha1 roundPack 48 (.ref (blobId [121]) (insertOne 120)) 84 := by
  have hparts : (parseEntryHeaderAt roundPack 12 = .ok (.refDelta, 4, 1) ∧
      readBaseId .sha1 roundPack (12 + 1) = .ok (blobId [120]) ∧
      Zlib.stored.inflateExact (roundPack.drop (12 + 1 + HashAlgo.sha1.rawLen)) 4 =
        .ok (insertOne 121, 15)) ∧
      parseEntryHeaderAt roundPack 48 = .ok (.refDelta, 4, 1) ∧
      readBaseId .sha1 roundPack (48 + 1) = .ok (blobId [121]) ∧
      Zlib.stored.inflateExact (roundPack.drop (48 + 1 + HashAlgo.sha1.rawLen)) 4 =
        .ok (insertOne 120, 15) := by
    decide +kernel
  obtain ⟨⟨header, base, body⟩, header', base', body'⟩ := hparts
  exact ⟨EntryAt.ref header base body, EntryAt.ref header' base' body'⟩

/-- The second entry is read through the first. -/
theorem readAtWith_second :
    round.readAtWith Zlib.stored afterOne.offset locateOne outside = .ok (.blob, [120]) := by
  obtain ⟨hnew, hxy, -, -⟩ := round_opens
  obtain ⟨hfirst, hsecond⟩ := entries_round
  have hfound : locateOne (blobId [121]) = some 12 := if_pos rfl
  have habsent : locateOne (blobId [120]) = none := if_neg hxy
  have hchain : ChainEnds Zlib.stored .sha1 roundPack locateOne 48 2 :=
    .ref hsecond hfound (.external hfirst habsent)
  exact readAtWith_of_explode explode_round hnew explode_first rfl locates_one
    oneObject_round hchain (by decide)

/-- The third entry is not: the base of its base is found after it, and leads back to it. -/
theorem readAtWith_third : ∃ results consumed p s o locate,
    explodePackPrefix Zlib.stored Hasher.sha roundPack .sha1 outside = .ok (results, consumed) ∧
    Pack.new roundPack .sha1 = .ok p ∧
    explodeEntries Zlib.stored Hasher.sha .sha1 outside roundPack 2 Exploded.start = .ok s ∧
    results[2]? = some o ∧ Locates Hasher.sha .sha1 s locate ∧ OneObject outside results ∧
    p.readAtWith Zlib.stored s.offset locate outside =
      .error (.pack (str "pack: delta chain is cyclic")) := by
  refine ⟨roundObjects, 140, round, afterTwo, _, locateTwo, explode_round, round_opens.1,
    explode_second, rfl, locates_two, oneObject_round, ?_⟩
  decide +kernel

end PackSample
end Puregit
