import Puregit.Refs.Store

/-! # Listing the refs

The refs of a store are the entries of packed-refs and, over them, the loose files below
`refs/` that resolve.  The files are collected directory by directory;
`get?_list` says what every name is listed with.
-/
namespace Puregit.RefStore

/-- Adds what the loose files below a directory resolve to; at most `n` directories deep. -/
def collectLoose (refs : RefStore) :
    Nat → Str → BTreeMap Str ObjectId → Except Error (BTreeMap Str ObjectId)
  | 0, _, map => .ok map
  | n + 1, dir, map =>
    if Vfs.pathExists refs.vfs dir then do
      let entries ← Vfs.readDir refs.vfs dir
      entries.foldlM (fun map entry =>
        let child := dir ++ '/' :: entry.1
        match entry.2 with
        | .dir => collectLoose refs n child map
        | .leaf _ => match refs.resolve child with
          | .ok id => .ok (map.insert child id)
          | .error _ => .ok map) map
    else .ok map

/-- The length of the longest path. -/
def depth (fs : GitDir) : Nat := (fs.entries.toList.map fun b => b.1.length).foldl max 0

/-- All refs, loose and packed, with the ids they resolve to. -/
def list (refs : RefStore) : Except Error (BTreeMap Str ObjectId) := do
  let entries ← refs.packed
  let map := entries.foldl (fun map entry => map.insert entry.name entry.id) BTreeMap.empty
  collectLoose refs (depth refs.vfs + 1) (str "refs") map

/-! ## What is collected -/

variable {refs : RefStore}

theorem length_le_depth {fs : GitDir} {p : List Str} {e : Entry Bytes} (h : fs.get? p = some e) :
    p.length ≤ depth fs := by
  have hmem : p.length ∈ fs.entries.toList.map fun b => b.1.length :=
    List.mem_map_of_mem (BTreeMap.get?_eq_some.mp h)
  have hmax : ∀ (l : List Nat) (acc x : Nat), x = acc ∨ x ∈ l → x ≤ l.foldl max acc := by
    intro l
    induction l with
    | nil => simp
    | cons a l ih =>
        intro acc x hx
        rw [List.foldl_cons]
        rcases hx with rfl | hx
        · exact (le_max_left x a).trans (ih _ _ (Or.inl rfl))
        rcases List.mem_cons.mp hx with rfl | hx
        · exact (le_max_right acc x).trans (ih _ _ (Or.inl rfl))
        · exact ih _ _ (Or.inr hx)
  exact hmax _ _ _ (Or.inr hmem)

/-- The names in a tree are names of files: not empty, no dots, no slash, no NUL. -/
def PlainNames (fs : GitDir) : Prop :=
  ∀ p e, fs.get? p = some e → ∀ c ∈ p, Vfs.isNormalComponent c = true ∧ c ≠ str ".." ∧
    '/' ∉ c ∧ Char.ofNat 0 ∉ c

theorem plainNames_of_all {fs : GitDir}
    (h : (fs.entries.toList.all fun b => b.1.all fun c => Vfs.isNormalComponent c &&
    c != str ".." && !c.contains '/' && !c.contains (Char.ofNat 0)) = true) : PlainNames fs := by
  intro p e hp c hc
  have hb := List.all_eq_true.mp (List.all_eq_true.mp h _ (BTreeMap.get?_eq_some.mp hp)) c hc
  simpa [and_assoc] using hb

/-- A name has a loose file and resolves. -/
def IsLoose (refs : RefStore) (name : Str) : Prop :=
  (refs.vfs.leaf? (refPath name)).isSome ∧ (refs.current name).isSome

/-- The map says what the loose names below a path resolve to, and the rest as before. -/
def Collects (refs : RefStore) (p : List Str) (map map' : BTreeMap Str ObjectId) : Prop :=
  ∀ name, (refs.IsLoose name ∧ p <+: refPath name → map'.get? name = refs.current name) ∧
    (¬ (refs.IsLoose name ∧ p <+: refPath name) → map'.get? name = map.get? name)

theorem refPath_child (dir : Str) {c : Str} (hc : '/' ∉ c) :
    refPath (dir ++ '/' :: c) = refPath dir ++ [c] := by
  rw [refPath, List.splitOn_append_cons_self, List.splitOn_eq_singleton hc, refPath]

/-- Every character of a name other than a slash is in a component. -/
theorem mem_component {name : Str} {c : Char} (hc : c ∈ name) (hslash : c ≠ '/') :
    ∃ component ∈ refPath name, c ∈ component := by
  induction name with
  | nil => cases hc
  | cons a name ih =>
      obtain ⟨first, rest, hsplit⟩ := List.exists_cons_of_ne_nil (refPath_ne_nil name)
      unfold refPath at ih hsplit ⊢
      rw [List.splitOn_cons_eq_if_modifyHead]
      split
      · rename_i ha
        have hmem : c ∈ name := (List.mem_cons.mp hc).resolve_left fun h =>
          hslash (h.trans (by simpa using ha))
        obtain ⟨component, hcomponent, h⟩ := ih hmem
        exact ⟨component, List.mem_cons_of_mem _ hcomponent, h⟩
      · rw [hsplit] at ih ⊢
        rw [List.modifyHead_cons]
        rcases List.mem_cons.mp hc with rfl | hmem
        · exact ⟨_, List.mem_cons_self, List.mem_cons_self⟩
        obtain ⟨component, hcomponent, h⟩ := ih hmem
        rcases List.mem_cons.mp hcomponent with rfl | hcomponent
        · exact ⟨_, List.mem_cons_self, List.mem_cons_of_mem _ h⟩
        · exact ⟨component, List.mem_cons_of_mem _ hcomponent, h⟩

/-- Plain names lead to their paths. -/
theorem resolve_of_plain {name : Str} (hplain : PlainNames refs.vfs) {e : Entry Bytes}
    (h : refs.vfs.get? (refPath name) = some e) : Vfs.resolve name = .ok ⟨refPath name, false⟩ := by
  have hc := hplain _ e h
  refine Vfs.resolve_normal ?_ (fun hd => (hc _ hd).2.1 rfl) fun c hm => (hc c hm).1
  intro hnul
  obtain ⟨component, hmem, hin⟩ := mem_component hnul (by decide)
  exact (hc component hmem).2.2.2 hin

/-- The step of a directory's fold: one entry. -/
def collectEntry (refs : RefStore) (n : Nat) (dir : Str) (map : BTreeMap Str ObjectId)
    (entry : Str × Entry Bytes) : Except Error (BTreeMap Str ObjectId) :=
  match entry.2 with
  | .dir => collectLoose refs n (dir ++ '/' :: entry.1) map
  | .leaf _ => match refs.resolve (dir ++ '/' :: entry.1) with
    | .ok id => .ok (map.insert (dir ++ '/' :: entry.1) id)
    | .error _ => .ok map

theorem Collects.refl {p : List Str} {map : BTreeMap Str ObjectId}
    (h : ∀ name, refs.IsLoose name → ¬ p <+: refPath name) : refs.Collects p map map := fun name =>
  ⟨fun ⟨hloose, hp⟩ => absurd hp (h name hloose), fun _ => rfl⟩

/-- One entry adds what is loose at or below it. -/
theorem collectEntry_spec {n : Nat} {dir : Str} (map : BTreeMap Str ObjectId)
    {entry : Str × Entry Bytes} (hplain : PlainNames refs.vfs)
    (hentry : entry ∈ refs.vfs.children (refPath dir))
    (ih : ∀ child map, refs.vfs.get? (refPath child) = some .dir →
      (refPath child).length = (refPath dir).length + 1 →
      ∃ map', collectLoose refs n child map = .ok map' ∧ refs.Collects (refPath child) map map') :
    ∃ map', collectEntry refs n dir map entry = .ok map' ∧
      refs.Collects (refPath dir ++ [entry.1]) map map' := by
  obtain ⟨c, e⟩ := entry
  have hget := FileTree.mem_children.mp hentry
  have hslash : '/' ∉ c := (hplain _ _ hget c (by simp)).2.2.1
  have hpath := refPath_child dir hslash
  rw [← hpath] at hget ⊢
  rw [collectEntry]
  cases e with
  | dir => exact ih _ map hget (by rw [hpath, List.length_append, List.length_singleton])
  | leaf d =>
      have hleaf : (refs.vfs.leaf? (refPath (dir ++ '/' :: c))).isSome := by
        rw [FileTree.leaf?_eq_some.mpr hget]
        rfl
      -- nothing lies below a file, so the file's own name is the only one
      have honly : ∀ name, refs.IsLoose name → refPath (dir ++ '/' :: c) <+: refPath name →
          name = dir ++ '/' :: c := by
        intro name hloose hprefix
        by_contra hne
        have hnone := FileTree.not_below_leaf hget hprefix fun h => hne (refPath_injective h).symm
        have hsome := hloose.1
        rw [FileTree.leaf?, hnone] at hsome
        cases hsome
      cases hr : refs.resolve (dir ++ '/' :: c) with
      | error err =>
          refine ⟨map, by simp only, Collects.refl fun name hloose hprefix => ?_⟩
          have hsome := (honly name hloose hprefix ▸ hloose).2
          rw [current, hr] at hsome
          cases hsome
      | ok id =>
          have hcurrent : refs.current (dir ++ '/' :: c) = some id := by
            rw [current, hr]
            rfl
          refine ⟨map.insert (dir ++ '/' :: c) id,
            by simp only, fun name => ⟨fun h => ?_, fun h => ?_⟩⟩
          · obtain rfl := honly name h.1 h.2
            rw [BTreeMap.get?_insert, if_pos rfl, hcurrent]
          · have hne : name ≠ dir ++ '/' :: c := by
              rintro rfl
              exact h ⟨⟨hleaf, by rw [hcurrent]; rfl⟩, List.prefix_rfl⟩
            rw [BTreeMap.get?_insert, if_neg hne]

/-- The entries of a directory add what is loose below it. -/
theorem foldlM_collectEntry (n : Nat) (dir : Str) (hplain : PlainNames refs.vfs)
    (ih : ∀ child map, refs.vfs.get? (refPath child) = some .dir →
      (refPath child).length = (refPath dir).length + 1 →
      ∃ map', collectLoose refs n child map = .ok map' ∧ refs.Collects (refPath child) map map')
    {entries : List (Str × Entry Bytes)} (hentries : entries ⊆ refs.vfs.children (refPath dir))
    (map : BTreeMap Str ObjectId) :
    ∃ map', entries.foldlM (collectEntry refs n dir) map = .ok map' ∧ ∀ name,
      ((refs.IsLoose name ∧ ∃ b ∈ entries, refPath dir ++ [b.1] <+: refPath name) →
        map'.get? name = refs.current name) ∧
      (¬ (refs.IsLoose name ∧ ∃ b ∈ entries, refPath dir ++ [b.1] <+: refPath name) →
        map'.get? name = map.get? name) := by
  induction entries generalizing map with
  | nil => exact ⟨map, rfl, fun name =>
    ⟨fun ⟨_, b, hb, _⟩ => absurd hb List.not_mem_nil, fun _ => rfl⟩⟩
  | cons b entries ihl =>
      obtain ⟨hb, hrest⟩ := List.cons_subset.mp hentries
      obtain ⟨mid, hmid, hcollects⟩ := collectEntry_spec map hplain hb ih
      obtain ⟨map', hmap', hall⟩ := ihl hrest mid
      refine ⟨map', except_bind_ok.mpr ⟨mid, hmid, hmap'⟩, fun name => ⟨?_, fun hno => ?_⟩⟩
      · rintro ⟨hloose, b', hb', hprefix⟩
        by_cases hlater : ∃ b ∈ entries, refPath dir ++ [b.1] <+: refPath name
        · exact (hall name).1 ⟨hloose, hlater⟩
        rw [(hall name).2 fun h => hlater h.2]
        rcases List.mem_cons.mp hb' with rfl | hb'
        · exact (hcollects name).1 ⟨hloose, hprefix⟩
        · exact absurd ⟨b', hb', hprefix⟩ hlater
      · rw [(hall name).2 fun h => hno ⟨h.1, h.2.imp fun b hb =>
          ⟨List.mem_cons_of_mem _ hb.1, hb.2⟩⟩]
        exact (hcollects name).2 fun h => hno ⟨h.1, b, List.mem_cons_self, h.2⟩

/-- **Collecting below a directory adds just what is loose there.** -/
theorem collectLoose_spec (hplain : PlainNames refs.vfs) (n : Nat) (dir : Str)
    (map : BTreeMap Str ObjectId) (hdir : refs.vfs.get? (refPath dir) = some .dir)
    (hn : depth refs.vfs < n + (refPath dir).length) :
    ∃ map', collectLoose refs n dir map = .ok map' ∧ refs.Collects (refPath dir) map map' := by
  induction n generalizing dir map with
  | zero =>
      have hle := length_le_depth hdir
      omega
  | succ n ih =>
      have hr := resolve_of_plain hplain hdir
      have hstat := Vfs.stat_of_resolve refs.vfs hr
      rw [hdir] at hstat
      have hread : Vfs.readDir refs.vfs dir = .ok (refs.vfs.children (refPath dir)) := by
        rw [Vfs.readDir, hr]
        simp only [bind, Except.bind, hdir]
      have hunfold : collectLoose refs (n + 1) dir map =
          (refs.vfs.children (refPath dir)).foldlM (collectEntry refs n dir) map := by
        rw [collectLoose, if_pos (Vfs.pathExists_iff.mpr ⟨_, hstat⟩), hread]
        rfl
      obtain ⟨map', hmap', hall⟩ := foldlM_collectEntry n dir hplain
        (fun child map hchild hlen => ih child map hchild (by omega)) (List.Subset.refl _) map
      refine ⟨map', hunfold.trans hmap', fun name => ?_⟩
      have hbelow : refs.IsLoose name → (refPath dir <+: refPath name ↔
          ∃ b ∈ refs.vfs.children (refPath dir), refPath dir ++ [b.1] <+: refPath name) := by
        intro hloose
        obtain ⟨d, hd⟩ := Option.isSome_iff_exists.mp hloose.1
        have hleaf := FileTree.leaf?_eq_some.mp hd
        constructor
        · rintro ⟨more, hmore⟩
          cases more with
          | nil =>
              rw [List.append_nil] at hmore
              rw [← hmore, hdir] at hleaf
              cases hleaf
          | cons c more =>
              have hsplit : refPath dir ++ [c] ++ more = refPath name := by
                rw [← hmore, List.append_assoc, List.singleton_append]
              have hsome : ∃ e, refs.vfs.get? (refPath dir ++ [c]) = some e := by
                by_cases hempty : more = []
                · rw [hempty, List.append_nil] at hsplit
                  exact ⟨_, hsplit ▸ hleaf⟩
                · exact ⟨_, FileTree.get?_of_append hempty (hsplit ▸ hleaf)⟩
              obtain ⟨e, he⟩ := hsome
              exact ⟨(c, e), FileTree.mem_children.mpr he, more, hsplit⟩
        · rintro ⟨b, -, hprefix⟩
          exact (List.prefix_append _ _).trans hprefix
      constructor
      · rintro ⟨hloose, hprefix⟩
        exact (hall name).1 ⟨hloose, (hbelow hloose).mp hprefix⟩
      · intro hno
        exact (hall name).2 fun h => hno ⟨h.1, (hbelow h.1).mpr h.2⟩

/-! ## What is listed -/

/-- The last packed entry of a name. -/
def packedLast (entries : List PackedRef) (name : Str) : Option ObjectId :=
  (entries.reverse.find? (·.name = name)).map (·.id)

theorem get?_packed (entries : List PackedRef) (name : Str) :
    (entries.foldl (fun map entry => map.insert entry.name entry.id) BTreeMap.empty).get? name =
      packedLast entries name := by
  induction entries using List.reverseRecOn with
  | nil => rfl
  | append_singleton entries entry ih =>
      rw [List.foldl_append, List.foldl_cons, List.foldl_nil, BTreeMap.get?_insert, ih, packedLast,
        packedLast, List.reverse_append, List.reverse_singleton, List.singleton_append,
          List.find?_cons]
      by_cases h : name = entry.name
      · rw [if_pos h, h]
        simp
      · rw [if_neg h]
        simp [Ne.symm h]

/-- No file is where `refs/` should be. -/
def RefsDir (fs : GitDir) : Prop := fs.leaf? [str "refs"] = none

theorem resolve_refs : Vfs.resolve (str "refs") = .ok ⟨[str "refs"], false⟩ :=
  @resolve_refPath (str "refs") (by decide)

/-- **A listed ref is what its loose file below `refs/` resolves to, or else its last packed
entry.** -/
theorem get?_list (hplain : PlainNames refs.vfs) (hdir : RefsDir refs.vfs)
    {entries : List PackedRef} (hpacked : refs.packed = .ok entries) :
    ∃ listed, refs.list = .ok listed ∧ ∀ name,
      (refs.IsLoose name ∧ [str "refs"] <+: refPath name → listed.get? name = refs.current name) ∧
      (¬ (refs.IsLoose name ∧ [str "refs"] <+: refPath name) →
        listed.get? name = packedLast entries name) := by
  have hpath : refPath (str "refs") = [str "refs"] := by decide
  cases hget : refs.vfs.get? [str "refs"] with
  | none =>
      -- nothing is collected, and nothing is there to be
      have habsent : Vfs.pathExists refs.vfs (str "refs") = false := by
        rw [Vfs.pathExists, Vfs.stat_of_resolve _ resolve_refs, hget]
        rfl
      refine ⟨_, except_bind_ok.mpr ⟨entries, hpacked, by rw [collectLoose, habsent]; rfl⟩,
        fun name => ⟨?_, ?_⟩⟩
      · rintro ⟨hloose, more, hmore⟩
        have hnone : refs.vfs.leaf? (refPath name) = none := by
          rw [← hmore, FileTree.leaf?]
          by_cases hempty : more = []
          · rw [hempty, List.append_nil, hget]
          · cases hbelow : refs.vfs.get? ([str "refs"] ++ more) with
            | none => rfl
            | some e =>
                rw [FileTree.get?_of_append hempty hbelow] at hget
                cases hget
        have hsome := hloose.1
        rw [hnone] at hsome
        cases hsome
      · intro _
        rw [get?_packed]
  | some e =>
      have hisdir : refs.vfs.get? (refPath (str "refs")) = some .dir := by
        rw [hpath, hget]
        cases e with
        | dir => rfl
        | leaf d =>
            rw [RefsDir, FileTree.leaf?_eq_some.mpr hget] at hdir
            cases hdir
      have hdepth : depth refs.vfs < depth refs.vfs + 1 + (refPath (str "refs")).length := by omega
      obtain ⟨listed, hlisted, hcollects⟩ :=
        collectLoose_spec hplain (depth refs.vfs + 1) (str "refs")
          (entries.foldl (fun map entry => map.insert entry.name entry.id) BTreeMap.empty)
          hisdir hdepth
      rw [hpath] at hcollects
      refine ⟨listed, except_bind_ok.mpr ⟨entries, hpacked, hlisted⟩, fun name =>
        ⟨(hcollects name).1, ?_⟩⟩
      intro h
      rw [(hcollects name).2 h, get?_packed]

/-- Nothing is listed where packed-refs cannot be read, or where `refs` is a file. -/
theorem list_error (h : (∃ e, refs.packed = .error e) ∨ ¬ RefsDir refs.vfs) :
    ∃ e, refs.list = .error e := by
  rw [list]
  cases hp : refs.packed with
  | error e => exact ⟨e, rfl⟩
  | ok entries =>
      have hfile := h.resolve_left fun ⟨e, he⟩ => by rw [hp] at he; cases he
      obtain ⟨d, hd⟩ := Option.ne_none_iff_exists'.mp hfile
      have hget := FileTree.leaf?_eq_some.mp hd
      have hexists : Vfs.pathExists refs.vfs (str "refs") = true :=
        Vfs.pathExists_iff.mpr ⟨_, Vfs.stat_ok.mpr ⟨_, resolve_refs, hget, by simp⟩⟩
      refine ⟨Vfs.notADirectory, ?_⟩
      simp only [bind, Except.bind]
      rw [collectLoose, if_pos hexists, Vfs.readDir, resolve_refs]
      simp only [bind, Except.bind, hget]

/-- Where names are listed, packed-refs can be read and `refs` is no file. -/
theorem list_ok {listed : BTreeMap Str ObjectId} (h : refs.list = .ok listed) :
    RefsDir refs.vfs ∧ ∃ entries, refs.packed = .ok entries := by
  have hno : ¬∃ e, refs.list = .error e := by
    rintro ⟨e, he⟩
    cases he.symm.trans h
  constructor
  · by_contra hdir
    exact hno (list_error (Or.inr hdir))
  · cases hpacked : refs.packed with
    | ok entries => exact ⟨entries, rfl⟩
    | error e => exact absurd (list_error (Or.inl ⟨e, hpacked⟩)) hno

/-! ## Listing and resolving -/

/-- A chain of at most `n` values ends in an id. -/
inductive EndsWithin (refs : RefStore) : Nat → Str → Prop
  | direct {n : Nat} {name : Str} {id : ObjectId} :
      refs.value? name = some (.direct id) → EndsWithin refs (n + 1) name
  | symbolic {n : Nat} {name target : Str} : refs.value? name = some (.symbolic target) →
      EndsWithin refs n target → EndsWithin refs (n + 1) name

theorem endsWithin_iff {n : Nat} {cur : Str} (name : Str) :
    refs.EndsWithin n cur ↔ ((refs.resolveFrom name n cur).toOption).isSome = true := by
  induction n generalizing cur with
  | zero =>
      refine ⟨fun h => (by cases h), fun h => ?_⟩
      rw [resolveFrom] at h
      cases h
  | succ n ih =>
      rw [resolveFrom_toOption]
      cases hv : refs.value? cur with
      | none =>
          refine ⟨fun h => ?_, fun h => (by cases h)⟩
          cases h with
          | direct h => rw [hv] at h; cases h
          | symbolic h => rw [hv] at h; cases h
      | some r =>
          cases r with
          | direct id => exact ⟨fun _ => rfl, fun _ => .direct hv⟩
          | symbolic target =>
              refine ⟨fun h => ?_, fun h => .symbolic hv (ih.mpr h)⟩
              cases h with
              | direct h => rw [hv] at h; cases h
              | symbolic h hend =>
                  rw [hv] at h
                  cases h
                  exact ih.mp hend

/-- A name resolves if its chain ends. -/
theorem current_isSome {name : Str} :
    (refs.current name).isSome = true ↔ refs.EndsWithin maxSymrefDepth name :=
  (endsWithin_iff name).symm

/-- The listing maps a name to an id. -/
def Lists (refs : RefStore) (name : Str) (id : ObjectId) : Prop :=
  ∃ listed, refs.list = .ok listed ∧ listed.get? name = some id

/-- The listing says of a name what resolving it does. -/
def ListsAsResolved (refs : RefStore) (name : Str) : Prop :=
  ∀ id, refs.Lists name id ↔ IsBelowRefs name ∧ refs.resolve name = .ok id

/-- The state the listing gets a name right in.

Where the listing is made, a packed name must have nothing at its path, or a file that
resolves, and one value; a name that is not a ref's must not be packed, nor have a file
below `refs/` that resolves.  Where it fails, the name must not resolve. -/
def ListedRight (refs : RefStore) (name : Str) : Prop :=
  match refs.packed, refs.vfs.leaf? [str "refs"] with
  | .ok entries, none =>
    if IsBelowRefs name then
      match refs.vfs.get? (refPath name) with
      | none => packedLast entries name = refs.packedId name
      | some _ => (∃ e ∈ entries, e.name = name) → refs.EndsWithin maxSymrefDepth name
    else (∀ e ∈ entries, e.name ≠ name) ∧ ¬ ((refs.vfs.leaf? (refPath name)).isSome = true ∧
      [str "refs"] <+: refPath name ∧ refs.EndsWithin maxSymrefDepth name)
  | _, _ => ¬ (IsBelowRefs name ∧ refs.EndsWithin maxSymrefDepth name)

theorem packedLast_eq_none {entries : List PackedRef} {name : Str} :
    packedLast entries name = none ↔ ∀ e ∈ entries, e.name ≠ name := by
  rw [packedLast, Option.map_eq_none_iff, List.find?_eq_none]
  simp

theorem resolve_eq_ok {name : Str} {id : ObjectId} :
    refs.resolve name = .ok id ↔ refs.current name = some id := by
  rw [current]
  cases refs.resolve name <;> simp [Except.toOption]

/-- What packed-refs holds is well formed. -/
theorem wellFormed_of_packed {entries : List PackedRef} (h : refs.packed = .ok entries) :
    ∀ e ∈ entries, e.WellFormed refs.algo := by
  rw [packed_eq] at h
  split at h
  · cases h
    simp
  · cases h
  · exact parsePackedRefs_wellFormed h

/-- A ref resolves to ids of the hash of the store. -/
theorem algo_of_resolve {name : Str} {id : ObjectId} (h : refs.resolve name = .ok id) :
    id.algo = refs.algo := by
  have hvalue : ∀ {cur : Str} {id : ObjectId}, refs.value? cur = some (.direct id) →
      id.algo = refs.algo := by
    intro cur id hcur
    rw [value?_eq] at hcur
    split at hcur
    · rename_i contents _
      cases hparse : Reference.parse refs.algo contents with
      | error e =>
        rw [hparse] at hcur
        cases hcur
      | ok value =>
        rw [hparse] at hcur
        cases hcur
        rw [Reference.parse] at hparse
        split at hparse
        · cases hparse
        · split at hparse
          · split at hparse <;> cases hparse
          · obtain ⟨o, ho, hid⟩ := except_map_ok.mp hparse
            cases hid
            exact ObjectId.fromHex_algo ho
    · cases hcur
    · obtain ⟨o, ho, hid⟩ := Option.map_eq_some_iff.mp hcur
      cases hid
      rw [packedId] at ho
      cases hentries : refs.packed with
      | error e =>
        rw [hentries] at ho
        cases ho
      | ok entries =>
        rw [hentries] at ho
        obtain ⟨e, he, rfl⟩ := Option.map_eq_some_iff.mp ho
        exact (wellFormed_of_packed hentries e (List.mem_of_find?_eq_some he)).algo_eq
  have hfrom : ∀ {n : Nat} {cur : Str}, (refs.resolveFrom name n cur).toOption = some id →
      id.algo = refs.algo := by
    intro n
    induction n with
    | zero =>
      intro cur hn
      cases hn
    | succ n ih =>
      intro cur hn
      rw [resolveFrom_toOption] at hn
      split at hn
      · cases hn
      · rename_i hcur
        cases hn
        exact hvalue hcur
      · exact ih hn
  exact hfrom (resolve_eq_ok.mp h)

/-- Where nothing is listed, the names that do not resolve are right. -/
theorem listsAsResolved_of_error {e : Error} (h : refs.list = .error e) (name : Str) :
    refs.ListsAsResolved name ↔ ¬ (IsBelowRefs name ∧ refs.EndsWithin maxSymrefDepth name) := by
  have hno : ∀ id, ¬ refs.Lists name id := by
    rintro id ⟨listed, hl, -⟩
    rw [h] at hl
    cases hl
  rw [← current_isSome]
  constructor
  · rintro hall ⟨hbelow, hsome⟩
    obtain ⟨id, hid⟩ := Option.isSome_iff_exists.mp hsome
    exact hno id ((hall id).mpr ⟨hbelow, resolve_eq_ok.mpr hid⟩)
  · intro hnot id
    refine ⟨fun hl => absurd hl (hno id), fun ⟨hbelow, hid⟩ => absurd ⟨hbelow, ?_⟩ hnot⟩
    rw [resolve_eq_ok.mp hid]
    rfl

/-- A listing that is made is right if it maps the name to what it resolves to. -/
theorem listsAsResolved_of_ok {listed : BTreeMap Str ObjectId} (h : refs.list = .ok listed)
    (name : Str) :
    refs.ListsAsResolved name ↔
      listed.get? name = if IsBelowRefs name then refs.current name else none := by
  have hlists : ∀ id, refs.Lists name id ↔ listed.get? name = some id := by
    intro id
    constructor
    · rintro ⟨listed', hl, hid⟩
      rw [h] at hl
      cases hl
      exact hid
    · exact fun hid => ⟨listed, h, hid⟩
  rw [Option.ext_iff]
  refine forall_congr' fun id => ?_
  rw [hlists, resolve_eq_ok]
  split
  · rename_i hbelow
    simp [hbelow]
  · rename_i hbelow
    simp [hbelow]

/-- **The listing agrees with resolving a name in just these states.** -/
theorem listsAsResolved_iff (hplain : PlainNames refs.vfs) (name : Str) :
    refs.ListsAsResolved name ↔ refs.ListedRight name := by
  cases hpacked : refs.packed with
  | error e =>
      obtain ⟨e', he⟩ := list_error (Or.inl ⟨e, hpacked⟩)
      rw [listsAsResolved_of_error he, ListedRight, hpacked]
  | ok entries =>
  cases hfile : refs.vfs.leaf? [str "refs"] with
  | some d =>
      obtain ⟨e', he⟩ := @list_error refs (Or.inr (by rw [RefsDir, hfile]; simp))
      rw [listsAsResolved_of_error he, ListedRight, hpacked, hfile]
  | none =>
  obtain ⟨listed, hlisted, hget⟩ := get?_list hplain hfile hpacked
  obtain ⟨hloose, hother⟩ := hget name
  rw [listsAsResolved_of_ok hlisted, ListedRight, hpacked, hfile]
  simp only
  by_cases hbelow : IsBelowRefs name
  · rw [if_pos hbelow, if_pos hbelow]
    have hprefix : [str "refs"] <+: refPath name := by
      obtain ⟨c, cs, hcs⟩ := refPath_of_isBelowRefs hbelow
      exact ⟨c :: cs, hcs.symm⟩
    have hresolve := resolve_refPath (Or.inl hbelow.1)
    have hends := @current_isSome refs name
    cases hat : refs.vfs.get? (refPath name) with
    | none =>
        have hnoleaf : refs.vfs.leaf? (refPath name) = none := by rw [FileTree.leaf?, hat]
        have hcurrent := current_of_no_leaf hresolve hnoleaf
        rw [hat, if_neg (by simp)] at hcurrent
        have hnot : ¬ (refs.IsLoose name ∧ [str "refs"] <+: refPath name) := by
          rintro ⟨⟨hsome, -⟩, -⟩
          rw [hnoleaf] at hsome
          cases hsome
        rw [hother hnot, hcurrent]
    | some e =>
        simp only
        by_cases hend : refs.EndsWithin maxSymrefDepth name
        · have hleaf : (refs.vfs.leaf? (refPath name)).isSome = true := by
            cases e with
            | leaf d =>
                rw [FileTree.leaf?_eq_some.mpr hat]
                rfl
            | dir =>
                have hcurrent := current_of_no_leaf hresolve (by rw [FileTree.leaf?, hat])
                rw [hat, if_pos rfl] at hcurrent
                rw [← hends, hcurrent] at hend
                cases hend
          exact iff_of_true (hloose ⟨⟨hleaf, hends.mpr hend⟩, hprefix⟩) fun _ => hend
        · have hnone : refs.current name = none := by
            rw [← hends, Bool.not_eq_true, Option.isSome_eq_false_iff,
              Option.isNone_iff_eq_none] at hend
            exact hend
          have hnot : ¬ (refs.IsLoose name ∧ [str "refs"] <+: refPath name) :=
            fun h => hend (hends.mp h.1.2)
          rw [hother hnot, hnone, packedLast_eq_none]
          refine ⟨fun hno hsome => ?_, fun h e he hname => hend (h ⟨e, he, hname⟩)⟩
          obtain ⟨e, he, hname⟩ := hsome
          exact absurd hname (hno e he)
  · rw [if_neg hbelow, if_neg hbelow]
    by_cases hl : refs.IsLoose name ∧ [str "refs"] <+: refPath name
    · refine iff_of_false ?_ fun h => h.2 ⟨hl.1.1, hl.2, current_isSome.mp hl.1.2⟩
      rw [hloose hl]
      intro hnone
      have hsome := hl.1.2
      rw [hnone] at hsome
      cases hsome
    · rw [hother hl, packedLast_eq_none]
      refine ⟨fun h => ⟨h, fun hloose => hl ⟨⟨hloose.1, current_isSome.mpr hloose.2.2⟩,
        hloose.2.1⟩⟩, And.left⟩

/-! ## A lock left behind -/

namespace ListSample

/-- The id of the samples. -/
def someId : ObjectId := .filled 1

/-- The store an update interrupted before its rename leaves. -/
def lockLeft : RefStore :=
  ((RefStore.mk FileTree.empty .sha1).lockRef (str "refs/heads/topic")
    (.direct someId)).toOption.getD
    ⟨FileTree.empty, .sha1⟩

theorem plainNames_lockLeft : PlainNames lockLeft.vfs :=
  plainNames_of_all (by decide)

theorem value_lock : lockLeft.value? (str "refs/heads/topic.lock") = some (.direct someId) := by
  decide

/-- The name is listed right, its lock is not. -/
theorem lockLeft_listed : lockLeft.ListsAsResolved (str "refs/heads/topic") ∧
    ¬ lockLeft.ListsAsResolved (str "refs/heads/topic.lock") := by
  have hpacked : lockLeft.packed = .ok [] := by decide
  have hrefs : lockLeft.vfs.leaf? [str "refs"] = none := by decide
  have hfile : (lockLeft.vfs.leaf? (refPath (str "refs/heads/topic.lock"))).isSome = true := by
    decide
  rw [listsAsResolved_iff plainNames_lockLeft, listsAsResolved_iff plainNames_lockLeft, ListedRight,
    ListedRight, hpacked, hrefs]
  constructor
  · have hat : lockLeft.vfs.get? (refPath (str "refs/heads/topic")) = none := by decide
    simp only
    rw [if_pos (by decide), hat]
    decide
  · simp only
    rw [if_neg (by decide)]
    exact fun h => h.2 ⟨hfile, by decide, .direct value_lock⟩

/-- A listing has names that are not a ref's. -/
theorem not_listsAsResolved : ¬ ∀ refs name, PlainNames refs.vfs → ListsAsResolved refs name := by
  intro h
  have hlisted : (lockLeft.list.toOption.bind fun listed =>
    listed.get? (str "refs/heads/topic.lock")) =
      some someId := by decide
  obtain ⟨listed, hl, hid⟩ := Option.bind_eq_some_iff.mp hlisted
  have hlist : lockLeft.list = .ok listed := by
    cases hr : lockLeft.list with
    | ok m =>
        rw [hr] at hl
        exact congrArg Except.ok (Option.some_injective _ hl)
    | error e =>
        rw [hr] at hl
        cases hl
  have hbelow := ((h lockLeft _ plainNames_lockLeft someId).mp ⟨listed, hlist, hid⟩).1
  revert hbelow
  decide

end ListSample

end Puregit.RefStore
