import InfinityLabs.Lib.ListParts
import InfinityLabs.Server.User
import Mathlib.Data.Set.Function

/-!
# Rooms for video calls

`generateVideoCallRoomName` of `services/transaction.service.js` names a room after the two
addresses of a call: lowercased, sorted, joined with `|` and hashed.  The order of the two and
their letter case do not matter.  The schema lets an address contain `|`, though, and then two
pairs can be joined to one text: a separator inside an address of one pair is the separator of
the other.

The hash and `toLowerCase` stay parameters.
-/

namespace InfinityLabs
namespace Server

open Lib

section

variable (toLowerCase : JsString → JsString) (sha256Hex : JsString → JsString)

/-- `[firstEmail, secondEmail].sort()`, which compares code units. -/
def sortEmails (firstEmail secondEmail : JsString) : JsString × JsString :=
  if secondEmail < firstEmail then (secondEmail, firstEmail) else (firstEmail, secondEmail)

/-- The `emails` of `generateVideoCallRoomName`. -/
def roomEmails (firstEmail secondEmail : JsString) : JsString × JsString :=
  sortEmails (toLowerCase firstEmail) (toLowerCase secondEmail)

/-- The `pair` of `generateVideoCallRoomName`: `emails.join('|')`. -/
def roomPair (firstEmail secondEmail : JsString) : JsString :=
  (roomEmails toLowerCase firstEmail secondEmail).1 ++
    0x7c :: (roomEmails toLowerCase firstEmail secondEmail).2

/-- The digest of a text, cut to 16 digits. -/
def roomHash (pair : JsString) : JsString :=
  (sha256Hex pair).take 16

/-- `generateVideoCallRoomName`. -/
def generateVideoCallRoomName (firstEmail secondEmail : JsString) : JsString :=
  roomHash sha256Hex (roomPair toLowerCase firstEmail secondEmail)

/-- The same two addresses, in any order and up to letter case. -/
def SamePair (a b c d : JsString) : Prop :=
  toLowerCase a = toLowerCase c ∧ toLowerCase b = toLowerCase d ∨
    toLowerCase a = toLowerCase d ∧ toLowerCase b = toLowerCase c

/-! ## Sorting -/

theorem sortEmails_comm (a b : JsString) : sortEmails a b = sortEmails b a := by
  by_cases hab : a < b
  case pos => simp [sortEmails, hab, List.lt_asymm hab]
  case neg =>
    by_cases hba : b < a
    case pos => simp [sortEmails, hab, hba]
    case neg => rw [List.le_antisymm hba hab]

theorem sortEmails_eq_or (a b : JsString) :
    sortEmails a b = (a, b) ∨ sortEmails a b = (b, a) := by
  by_cases hba : b < a
  case pos => simp [sortEmails, hba]
  case neg => simp [sortEmails, hba]

/-- Sorting forgets the order, and nothing else. -/
theorem sortEmails_eq_iff (a b c d : JsString) :
    sortEmails a b = sortEmails c d ↔ a = c ∧ b = d ∨ a = d ∧ b = c := by
  constructor
  · intro heq
    rcases sortEmails_eq_or a b with hab | hab <;>
      rcases sortEmails_eq_or c d with hcd | hcd <;>
        · simp [hab, hcd] at heq
          simp [heq]
  · rintro (⟨rfl, rfl⟩ | ⟨rfl, rfl⟩)
    · rfl
    · exact sortEmails_comm a b

/-! ## Rooms and pairs -/

/-- The separator of each pair is a character of the other's addresses: with `x`, `y` and `z`,
`w` the pairs in order, `z` is `x|r` and `y` is `r|w` for some text `r`, or the other way round. -/
def SeparatorsCross (p q : JsString × JsString) : Prop :=
  ∃ r, q.1 = p.1 ++ 0x7c :: r ∧ p.2 = r ++ 0x7c :: q.2 ∨
    p.1 = q.1 ++ 0x7c :: r ∧ q.2 = r ++ 0x7c :: p.2

/-- Which pairs are joined to one text. -/
theorem roomPair_eq_iff (a b c d : JsString) :
    roomPair toLowerCase a b = roomPair toLowerCase c d ↔
      SamePair toLowerCase a b c d ∨
        SeparatorsCross (roomEmails toLowerCase a b) (roomEmails toLowerCase c d) := by
  have hpair : roomEmails toLowerCase a b = roomEmails toLowerCase c d ↔
      SamePair toLowerCase a b c d := sortEmails_eq_iff _ _ _ _
  rw [roomPair, roomPair, append_cons_eq_append_cons_iff, ← hpair, Prod.ext_iff]
  rfl

/-- Two texts with a crossing come from two pairs. -/
theorem not_samePair_of_separatorsCross {a b c d : JsString}
    (hcross : SeparatorsCross (roomEmails toLowerCase a b) (roomEmails toLowerCase c d)) :
    ¬ SamePair toLowerCase a b c d := by
  intro hsame
  have hpair : roomEmails toLowerCase a b = roomEmails toLowerCase c d :=
    (sortEmails_eq_iff _ _ _ _).mpr hsame
  obtain ⟨r, ⟨hfirst, -⟩ | ⟨hfirst, -⟩⟩ := hcross
  · simp [hpair] at hfirst
  · simp [hpair] at hfirst

/-- **When rooms are per pair**: for two pairs of addresses, exactly if their separators do not
cross. -/
theorem generateVideoCallRoomName_iff (a b c d : JsString)
    (hinj : Set.InjOn (roomHash sha256Hex)
      {roomPair toLowerCase a b, roomPair toLowerCase c d}) :
    (generateVideoCallRoomName toLowerCase sha256Hex a b =
        generateVideoCallRoomName toLowerCase sha256Hex c d ↔
      SamePair toLowerCase a b c d) ↔
    ¬ SeparatorsCross (roomEmails toLowerCase a b) (roomEmails toLowerCase c d) := by
  have hroom : generateVideoCallRoomName toLowerCase sha256Hex a b =
        generateVideoCallRoomName toLowerCase sha256Hex c d ↔
      roomPair toLowerCase a b = roomPair toLowerCase c d :=
    hinj.eq_iff (by simp) (by simp)
  rw [hroom, roomPair_eq_iff]
  constructor
  · intro hiff hcross
    exact not_samePair_of_separatorsCross toLowerCase hcross (hiff.mp (Or.inr hcross))
  · intro hcross
    exact or_iff_left hcross

end

/-- The digests of two texts. -/
def sampleSha256Hex (pair : JsString) : JsString :=
  if pair = js "ann@x.io|bob@x.io" then
    js "d5ea4bc0ea3bbfb4ec47e3d672e704bd98a4bdb602c0091cfe25ee31bf6654a9"
  else if pair = js "ann@x.io|cid@x.io" then
    js "239c344ba5c1966d4fc2112529ffab56c4394634789284cdedde9e9f4e49b69d"
  else []

/-- Two calls of one user. -/
theorem generateVideoCallRoomName_iff_sample :
    (generateVideoCallRoomName asciiLower sampleSha256Hex (js "Bob@x.io") (js "ann@x.io") =
        generateVideoCallRoomName asciiLower sampleSha256Hex (js "cid@x.io") (js "ann@x.io") ↔
      SamePair asciiLower (js "Bob@x.io") (js "ann@x.io") (js "cid@x.io") (js "ann@x.io")) ↔
    ¬ SeparatorsCross (roomEmails asciiLower (js "Bob@x.io") (js "ann@x.io"))
      (roomEmails asciiLower (js "cid@x.io") (js "ann@x.io")) := by
  refine generateVideoCallRoomName_iff asciiLower sampleSha256Hex _ _ _ _ ?_
  have hfirst : roomPair asciiLower (js "Bob@x.io") (js "ann@x.io") =
      js "ann@x.io|bob@x.io" := by decide
  have hsecond : roomPair asciiLower (js "cid@x.io") (js "ann@x.io") =
      js "ann@x.io|cid@x.io" := by decide
  have hne : roomHash sampleSha256Hex (js "ann@x.io|bob@x.io") ≠
      roomHash sampleSha256Hex (js "ann@x.io|cid@x.io") := by decide
  rw [hfirst, hsecond, Set.injOn_pair]
  exact fun heq => absurd heq hne

/-- Two pairs of accepted addresses with one room, whatever the hash. -/
theorem generateVideoCallRoomName_cross :
    ¬ ∃ sha256Hex : JsString → JsString, ∀ a b c d : JsString,
      (∀ email ∈ [a, b, c, d], matchesEmail (castEmail asciiLower email) = true) →
      Set.InjOn (roomHash sha256Hex) {roomPair asciiLower a b, roomPair asciiLower c d} →
      (generateVideoCallRoomName asciiLower sha256Hex a b =
          generateVideoCallRoomName asciiLower sha256Hex c d ↔
        SamePair asciiLower a b c d) := by
  rintro ⟨sha256Hex, hrooms⟩
  have hpair : roomPair asciiLower (js "a@b.c|d") (js "e@f.g") =
      roomPair asciiLower (js "a@b.c") (js "d|e@f.g") := by decide
  have hsame := (hrooms (js "a@b.c|d") (js "e@f.g") (js "a@b.c") (js "d|e@f.g")
    (by simp only [List.forall_mem_cons]; decide) (by simp [hpair])).mp (congrArg _ hpair)
  revert hsame
  simp only [SamePair]
  decide

end Server
end InfinityLabs
