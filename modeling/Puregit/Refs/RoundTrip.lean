import Puregit.Refs.History

/-! # Writing references and reading them back

A name is written as it is and read back trimmed, and what is trimmed is Unicode white space,
of which a valid name may hold all that is not ASCII.  So a packed-refs file and a loose file
give back what was written just when no name starts or ends with white space.
-/
namespace Puregit

/-! ## packed-refs -/

/-- **A packed-refs file gives its entries back** just when each is named without white space
at the ends and its ids are of the store's hash. -/
theorem parsePackedRefs_serialize_iff {algo : HashAlgo} {entries : List PackedRef}
    (hvalid : ∀ e ∈ entries, isValidRefName e.name = true) :
    parsePackedRefs algo (serializePackedRefs entries) = .ok entries ↔
      ∀ e ∈ entries, Unpadded e.name ∧ e.id.algo = algo ∧ ∀ p ∈ e.peeled, p.algo = algo := by
  constructor
  · intro h e he
    obtain ⟨-, htrim, hid, hpeeled⟩ := parsePackedRefs_wellFormed h e he
    exact ⟨trim_eq_self_iff.mp htrim, hid, hpeeled⟩
  · intro h
    refine parsePackedRefs_serialize fun e he => ?_
    obtain ⟨hname, hid, hpeeled⟩ := h e he
    exact ⟨hvalid e he, trim_eq_self_iff.mpr hname, hid, hpeeled⟩

/-! ## Loose files -/

/-- A value whose target, if it has one, is a valid name. -/
def Reference.Valid : Reference → Prop
  | .direct _ => True
  | .symbolic target => isValidRefName target = true

/-- What a value must be of for its file to give it back. -/
def Reference.Kept (algo : HashAlgo) : Reference → Prop
  | .direct id => id.algo = algo
  | .symbolic target => Unpadded target

theorem Reference.parse_toFileContents_iff {algo : HashAlgo} {r : Reference} (hvalid : r.Valid) :
    Reference.parse algo r.toFileContents = .ok r ↔ r.Kept algo := by
  rw [Reference.parse_toFileContents]
  cases r with
  | direct id => rfl
  | symbolic target =>
      rw [ReadsBack, Kept, trim_eq_self_iff]
      exact and_iff_right hvalid

/-- **References are read back as they were written** exactly where their ids are of the
store's hash and no name starts or ends with white space. -/
theorem refs_roundTrip_iff (algo : HashAlgo) :
    (∀ entries : List PackedRef, (∀ e ∈ entries, isValidRefName e.name = true) →
      (parsePackedRefs algo (serializePackedRefs entries) = .ok entries ↔
        ∀ e ∈ entries, Unpadded e.name ∧ e.id.algo = algo ∧ ∀ p ∈ e.peeled, p.algo = algo)) ∧
    ∀ r : Reference, r.Valid → (Reference.parse algo r.toFileContents = .ok r ↔ r.Kept algo) :=
  ⟨fun _ hvalid => parsePackedRefs_serialize_iff hvalid, fun _ hvalid =>
    Reference.parse_toFileContents_iff hvalid⟩

namespace RefsSample

/-- An id of a repeated byte. -/
def oid (b : UInt8) : ObjectId := .filled b

/-- A branch and an annotated tag. -/
def packed : List PackedRef :=
  [⟨str "refs/heads/main", oid 17, none⟩, ⟨str "refs/tags/v1", oid 34, some (oid 51)⟩]

theorem packed_read_back : parsePackedRefs .sha1 (serializePackedRefs packed) = .ok packed ∧
    Reference.parse .sha1 (Reference.symbolic (str "refs/heads/main")).toFileContents =
      .ok (.symbolic (str "refs/heads/main")) := by
  obtain ⟨hpacked, hloose⟩ := refs_roundTrip_iff .sha1
  refine ⟨(hpacked packed (by decide)).mpr fun e he => ?_, (hloose _ ?_).mpr ?_⟩
  · rcases List.mem_cons.mp he with rfl | he
    · exact ⟨trim_eq_self_iff.mp (by decide), rfl, nofun⟩
    · obtain rfl := List.mem_singleton.mp he
      refine ⟨trim_eq_self_iff.mp (by decide), rfl, fun p hp => ?_⟩
      obtain rfl := Option.some.inj hp
      rfl
  · show isValidRefName _ = true
    decide
  · exact trim_eq_self_iff.mp (by decide)

/-- A branch whose name ends in a no-break space. -/
def padded : Str := str "refs/heads/main" ++ [Char.ofNat 0xA0]

/-- **A valid name that ends in a no-break space is read back as another name**, from the
packed-refs file and from a loose one. -/
theorem padded_not_read_back : isValidRefName padded = true ∧
    parsePackedRefs .sha1 (serializePackedRefs [⟨padded, oid 17, none⟩]) =
      .ok [⟨str "refs/heads/main", oid 17, none⟩] ∧
    Reference.parse .sha1 (Reference.symbolic padded).toFileContents =
      .ok (.symbolic (str "refs/heads/main")) ∧
    padded ≠ str "refs/heads/main" := by
  decide +kernel

end RefsSample

end Puregit
