import Puregit.Lib.Occurrence
import Puregit.Object.Canonical

/-! # Signed tags

A tag's signature is the end of its message.  It is found by its first line, a marker, and
the code takes the first place where one occurs, whether or not a line starts there.  So a
message in front of the signature comes back as it was exactly where it quotes no marker.
-/
namespace Puregit
namespace Tag

/-- The first lines of the armored signatures. -/
def signatureMarkers : List Bytes :=
  [bytes "-----BEGIN SSH SIGNATURE-----", bytes "-----BEGIN PGP SIGNATURE-----"]

/-- The offset in a message at which a signature begins. -/
def signatureStart (message : Bytes) : Option Nat := firstOf signatureMarkers message

/-- Serializes the tag with another message. -/
def serializeWithMessage (t : Tag) (message : Bytes) : Bytes :=
  serialize { t with message := message }

/-- The signature at the end of the message. -/
def signature (t : Tag) : Option Bytes :=
  (signatureStart t.message).map fun start => t.message.drop start

/-- What was signed: the tag without its signature. -/
def signedPayload (t : Tag) : Bytes :=
  let stop := (signatureStart t.message).getD t.message.length
  t.serializeWithMessage (t.message.take stop)

/-- **The signed bytes and the signature make up the tag.** -/
theorem signedPayload_append_signature (t : Tag) :
    t.signedPayload ++ t.signature.getD [] = t.serialize := by
  rw [signedPayload, serializeWithMessage, signature, serialize, serialize]
  cases signatureStart t.message with
  | none => simp
  | some start => simp

/-! ## Where the signature begins -/

theorem signatureMarkers_ne_nil : ∀ marker ∈ signatureMarkers, marker ≠ [] := by decide

theorem not_mem_signatureMarkers : ∀ marker ∈ signatureMarkers, (10 : UInt8) ∉ marker := by decide

/-- Lines that are all ended by a newline. -/
def Terminated (m : Bytes) : Prop := m = [] ∨ m.getLast? = some 10

/-- A marker ends before the newline in front of the signature. -/
theorem startsWithOne_append {m : Bytes} (hm : m.getLast? = some 10) {a : Bytes} :
    StartsWithOne signatureMarkers (m ++ a) ↔ StartsWithOne signatureMarkers m := by
  obtain ⟨x, rfl⟩ : ∃ x, m = x ++ [10] := by
    obtain ⟨hne, hlast⟩ := List.mem_getLast?_eq_getLast hm
    exact ⟨m.dropLast, by rw [hlast, List.dropLast_append_getLast]⟩
  constructor
  · rintro ⟨marker, hmarker, hprefix⟩
    rw [List.append_assoc] at hprefix
    have hx := prefix_append_of_not_mem (not_mem_signatureMarkers marker hmarker) hprefix
    exact ⟨marker, hmarker, hx.trans (List.prefix_append x [10])⟩
  · rintro ⟨marker, hmarker, hprefix⟩
    exact ⟨marker, hmarker, hprefix.trans (List.prefix_append _ a)⟩

/-- No marker occurs in front of the signature where the message quotes none. -/
theorem forall_not_startsWithOne {m : Bytes} (hm : Terminated m) {a : Bytes} :
    (∀ i < m.length, ¬ StartsWithOne signatureMarkers ((m ++ a).drop i)) ↔
      ∀ marker ∈ signatureMarkers, ¬ marker <:+: m := by
  have hdrop : ∀ i < m.length, (StartsWithOne signatureMarkers ((m ++ a).drop i) ↔
      StartsWithOne signatureMarkers (m.drop i)) := by
    intro i hi
    rw [List.drop_append_of_le_length hi.le]
    refine startsWithOne_append ?_
    rcases hm with rfl | hm
    · exact absurd hi (Nat.not_lt_zero i)
    · rw [List.getLast?_drop, if_neg (by omega), hm]
  constructor
  · rintro hnone marker hmarker ⟨x, y, rfl⟩
    have hpos := List.length_pos_of_ne_nil (signatureMarkers_ne_nil marker hmarker)
    have hlt : x.length < (x ++ marker ++ y).length := by
      rw [List.length_append, List.length_append]
      omega
    refine hnone x.length hlt ((hdrop x.length hlt).mpr ⟨marker, hmarker, y, ?_⟩)
    rw [List.append_assoc, List.drop_left]
  · rintro hnone i hi hstart
    obtain ⟨marker, hmarker, hprefix⟩ := (hdrop i hi).mp hstart
    exact hnone marker hmarker (List.IsInfix.trans hprefix.isInfix (List.drop_suffix i m).isInfix)

/-- The signature begins behind the message where the message quotes no marker. -/
theorem signatureStart_append_iff {m a : Bytes} (hm : Terminated m)
    (ha : StartsWithOne signatureMarkers a) :
    signatureStart (m ++ a) = some m.length ↔ ∀ marker ∈ signatureMarkers, ¬ marker <:+: m := by
  rw [signatureStart, firstOf_eq_some signatureMarkers_ne_nil, List.drop_left,
    forall_not_startsWithOne hm]
  exact and_iff_right ha

/-- **A signed tag comes apart into its message and its signature** exactly where the
message quotes no marker, at the start of a line or inside one. -/
theorem signature_append_iff (t : Tag) {m a : Bytes} (hm : Terminated m)
    (ha : StartsWithOne signatureMarkers a) :
    (signature { t with message := m ++ a } = some a ∧
      signedPayload { t with message := m ++ a } = serialize { t with message := m }) ↔
      ∀ marker ∈ signatureMarkers, ¬ marker <:+: m := by
  rw [← signatureStart_append_iff hm ha]
  constructor
  · rintro ⟨hsig, -⟩
    obtain ⟨start, hstart, hdrop⟩ := Option.map_eq_some_iff.mp hsig
    -- none begins behind the message, since one begins there
    have hle : start ≤ m.length := by
      obtain ⟨-, hfirst⟩ := (firstOf_eq_some signatureMarkers_ne_nil).mp hstart
      refine not_lt.mp fun hlt => hfirst m.length hlt ?_
      rwa [List.drop_left]
    have hlength := congrArg List.length hdrop
    rw [List.length_drop, List.length_append] at hlength
    obtain rfl : start = m.length := by omega
    exact hstart
  · intro hstart
    rw [signature, signedPayload, serializeWithMessage]
    simp only [hstart]
    rw [Option.map_some, List.drop_left, Option.getD_some, List.take_left]
    exact ⟨rfl, rfl⟩

/-! ## A message that quotes a marker -/

/-- A tag of the id `11...`. -/
def signedTag (message : Bytes) : Tag where
  object := .filled 17
  objectType := .commit
  name := bytes "v1"
  tagger := none
  message := message

/-- A signature without a body. -/
def emptyArmor : Bytes := bytes "-----BEGIN PGP SIGNATURE-----\n-----END PGP SIGNATURE-----\n"

/-- A message with a marker in the middle of a line. -/
def quotingMessage : Bytes := bytes "see -----BEGIN PGP SIGNATURE-----\n"

theorem startsWithOne_emptyArmor : StartsWithOne signatureMarkers emptyArmor :=
  ⟨_, List.mem_cons_of_mem _ List.mem_cons_self, by decide⟩

theorem signature_release :
    signature (signedTag (bytes "one\n" ++ emptyArmor)) = some emptyArmor ∧
      signedPayload (signedTag (bytes "one\n" ++ emptyArmor)) =
        (signedTag (bytes "one\n")).serialize :=
  (signature_append_iff (signedTag []) (Or.inr (by decide)) startsWithOne_emptyArmor).mpr
    (by decide)

/-- **A quoted marker is taken for the signature**, although no line starts with it. -/
theorem signature_quoting :
    Terminated quotingMessage ∧ (∀ line ∈ quotingMessage.splitOn 10,
      ¬ StartsWithOne signatureMarkers line) ∧
    StartsWithOne signatureMarkers emptyArmor ∧
    signature (signedTag (quotingMessage ++ emptyArmor)) ≠ some emptyArmor ∧
    signedPayload (signedTag (quotingMessage ++ emptyArmor)) ≠
      (signedTag quotingMessage).serialize := by
  have hlines : ∀ line ∈ quotingMessage.splitOn 10, ∀ marker ∈ signatureMarkers,
      ¬ marker <+: line := by
    decide
  refine ⟨Or.inr (by decide), fun line hline ⟨marker, hmarker, hprefix⟩ => ?_,
    startsWithOne_emptyArmor, ?_⟩
  · exact hlines line hline marker hmarker hprefix
  · decide +kernel

end Tag
end Puregit
