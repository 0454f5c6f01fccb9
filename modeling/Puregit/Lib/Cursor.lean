import Puregit.Lib.Exec

/-! # Readers that stop where they end

A cursor reads a value at a position of some data and says where what it read ends.  A local
one looks at nothing behind that end, so it reads the same in front of anything else, and where
the data stops before the end it fails: a failure on the data that has arrived is no verdict on
what is still to come, and a success is final.  Locality is compositional, `Local.bind`.
-/
namespace Puregit

/-- A reader from a position of some data: a value and the position behind it. -/
abbrev Cursor (β ε α : Type) := List β → Nat → Except ε (α × Nat)

namespace Cursor

variable {α β γ ε : Type}

/-- Reads a value and then what depends on it. -/
def bind (read : Cursor β ε α) (next : α → Cursor β ε γ) : Cursor β ε γ := fun data p => do
  let (a, q) ← read data p
  next a data q

/-- Reads a value of another form. -/
def map (f : α → γ) (read : Cursor β ε α) : Cursor β ε γ := fun data p =>
  (read data p).map fun (a, q) => (f a, q)

/-- What is read depends on nothing behind its end. -/
structure Local (read : Cursor β ε α) : Prop where
  within : ∀ {data p a q}, read data p = .ok (a, q) → p ≤ q ∧ q ≤ data.length
  same : ∀ {data p a q data'}, read data p = .ok (a, q) → data'.take q = data.take q →
    read data' p = .ok (a, q)

namespace Local

variable {read : Cursor β ε α} {data : List β} {p q : Nat} {a : α}

theorem bind (h : read.Local) {next : α → Cursor β ε γ} (hnext : ∀ a, (next a).Local) :
    (read.bind next).Local := by
  constructor
  · intro data p c t hread
    obtain ⟨⟨a, q⟩, ha, hc⟩ := except_bind_ok.mp hread
    have hq := h.within ha
    have ht := (hnext a).within hc
    exact ⟨le_trans hq.1 ht.1, ht.2⟩
  · intro data p c t data' hread heq
    obtain ⟨⟨a, q⟩, ha, hc⟩ := except_bind_ok.mp hread
    have hq : data'.take q = data.take q := by
      have hqt : q ≤ t := ((hnext a).within hc).1
      rw [← Nat.min_eq_left hqt, ← List.take_take, heq, List.take_take]
    exact except_bind_ok.mpr ⟨(a, q), h.same ha hq, (hnext a).same hc heq⟩

theorem map (h : read.Local) (f : α → γ) : (read.map f).Local := by
  constructor
  · intro data p c q hread
    obtain ⟨⟨a, q⟩, ha, heq⟩ := except_map_ok.mp hread
    cases heq
    exact h.within ha
  · intro data p c q data' hread heq
    obtain ⟨⟨a, q⟩, ha, hc⟩ := except_map_ok.mp hread
    cases hc
    exact except_map_ok.mpr ⟨(a, q), h.same ha heq, rfl⟩

/-- **A success is final**: it stands once the data reaches as far as what was read. -/
theorem take (h : read.Local) (hread : read data p = .ok (a, q)) {k : Nat} (hk : q ≤ k) :
    read (data.take k) p = .ok (a, q) :=
  h.same hread (by rw [List.take_take, Nat.min_eq_left hk])

/-- **A failure is no verdict**: where the data stops early there is only a failure. -/
theorem truncated (h : read.Local) (hread : read data p = .ok (a, q)) {k : Nat} (hk : k < q) :
    ∃ e, read (data.take k) p = .error e := by
  cases hcut : read (data.take k) p with
  | error e => exact ⟨e, rfl⟩
  | ok r =>
      obtain ⟨b, t⟩ := r
      have ht : t ≤ k := (h.within hcut).2.trans (List.length_take_le k data)
      have hsame : read data p = .ok (b, t) :=
        h.same hcut (by rw [List.take_take, Nat.min_eq_left ht])
      cases hread.symm.trans hsame
      omega

end Local

/-- The reader reads some of the input, and nothing behind it. -/
def Delimits (read : List β → Except ε (α × Nat)) : Prop :=
  ∀ input a n, read input = .ok (a, n) →
    0 < n ∧ n ≤ input.length ∧ ∀ input', input'.take n = input.take n → read input' = .ok (a, n)

/-- What a reader takes is the front of its input, and it reads that front in front of anything. -/
theorem Delimits.of_front {read : List β → Except ε (α × Nat)}
    (h : ∀ input a n, read input = .ok (a, n) → 0 < n ∧
      ∃ front rest, input = front ++ rest ∧ front.length = n ∧
        ∀ rest', read (front ++ rest') = .ok (a, n)) :
    Delimits read := by
  intro input a n hread
  obtain ⟨hpos, front, rest, rfl, hlen, hsame⟩ := h input a n hread
  refine ⟨hpos, ?_, fun input' hinput => ?_⟩
  · rw [List.length_append]
    omega
  · rw [List.take_left' hlen] at hinput
    rw [← List.take_append_drop n input', hinput]
    exact hsame _

/-- A reader of what is behind a position. -/
def behind (read : List β → Except ε (α × Nat)) : Cursor β ε α := fun data p =>
  (read (data.drop p)).map fun (a, n) => (a, p + n)

theorem Delimits.behind {read : List β → Except ε (α × Nat)} (h : Delimits read) :
    (behind read).Local := by
  constructor
  · intro data p a q hread
    obtain ⟨⟨a, n⟩, ha, heq⟩ := except_map_ok.mp hread
    cases heq
    obtain ⟨hpos, hlen, -⟩ := h _ a n ha
    rw [List.length_drop] at hlen
    omega
  · intro data p a q data' hread heq
    obtain ⟨⟨a, n⟩, ha, hq⟩ := except_map_ok.mp hread
    cases hq
    obtain ⟨hpos, hlen, hsame⟩ := h _ a n ha
    refine except_map_ok.mpr ⟨(a, n), hsame _ ?_, rfl⟩
    rw [List.take_drop, List.take_drop, heq]

end Cursor
end Puregit
