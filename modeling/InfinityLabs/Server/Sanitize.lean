import InfinityLabs.Lib.Enclosed
import InfinityLabs.Server.Chat

/-!
# The message that reaches the model

`sanitizeInput` trims the message, cuts it to 250 characters and takes its tags out, in this
order.  So nothing is enclosed in the result, but the cut and the tags can leave white space at
its ends: the result is clean exactly if no white space comes right behind tags at the front or
right before tags at the end.
-/

namespace InfinityLabs
namespace Server

open Lib

/-! ## Tags -/

/-- The replacement takes out what stands between `<` and the next `>`. -/
theorem stripTags_stripped (s : JsString) : Stripped 0x3c 0x3e s (stripTags s) := by
  fun_induction stripTags s with
  | case1 => exact Stripped.nil
  | case2 ch rest htag ih =>
      simp at htag
      obtain ⟨rfl, hclose⟩ := htag
      exact Stripped.drop_first hclose ih
  | case3 ch rest htag ih =>
      simp at htag
      exact Stripped.keep (Decidable.imp_iff_not_or.mp htag) ih

/-! ## What is passed on -/

/-- The message that `processMessage` hands on, if it is not empty. -/
def passedOn (message : Field) : Option JsString :=
  if sanitizeInput message = [] then none else some (sanitizeInput message)

/-- A turn depends on its message through what is passed on. -/
theorem processMessage_passedOn (engine : Engine) (d : Dialogue) (message : Field)
    (chatHistory : List ChatEntry) :
    processMessage engine d message chatHistory =
      match passedOn message with
      | none =>
          ({ intent := .error, message := js "Please enter a valid message.", data := none
             chatHistory := chatHistory, transferCompleted := none }, [])
      | some cleanMessage =>
          let (result, committed) :=
            processWithFunctionCalling engine d cleanMessage chatHistory
          ({ intent := .chat, message := result.message, data := result.data
             chatHistory := result.chatHistory
             transferCompleted := some (result.transferCompleted.getD false) }, committed) := by
  by_cases hempty : sanitizeInput message = [] <;> simp [processMessage, passedOn, hempty]

/-- A message that says something: short, without tags, not blank, and without white space at
its ends. -/
structure CleanMessage (m : JsString) : Prop where
  length_le : m.length ≤ 250
  noTag : ¬ Encloses 0x3c 0x3e m
  notBlank : ∃ c ∈ m, isWhiteSpace c = false
  noLeading : ∀ c, m.head? = some c → isWhiteSpace c = false
  noTrailing : ∀ c, m.getLast? = some c → isWhiteSpace c = false

/-- Tags in front, then white space. -/
def BeginsBlank (t : JsString) : Prop :=
  ∃ p c rest, t = p ++ c :: rest ∧ Tags 0x3c 0x3e p ∧ isWhiteSpace c = true

/-- White space that is not in a tag, then nothing but tags. -/
def EndsBlank (t : JsString) : Prop :=
  ∃ front c p, t = front ++ c :: p ∧ Tags 0x3c 0x3e p ∧ (p = [] ∨ ¬ Opens 0x3c 0x3e front) ∧
    isWhiteSpace c = true

theorem ne_of_isWhiteSpace {c d : UInt16} (hc : isWhiteSpace c = true)
    (hd : isWhiteSpace d = false) : c ≠ d := by
  rintro rfl
  simp [hc] at hd

/-- White space at the front of what is left. -/
theorem beginsBlank_iff (t : JsString) :
    BeginsBlank t ↔ ∃ c, (stripTags t).head? = some c ∧ isWhiteSpace c = true := by
  constructor
  · rintro ⟨p, c, rest, ht, hp, hc⟩
    refine ⟨c, ?_, hc⟩
    rw [(stripTags_stripped t).head?_iff (ne_of_isWhiteSpace hc (by decide))]
    exact ⟨p, rest, ht, hp⟩
  · rintro ⟨c, hhead, hc⟩
    rw [(stripTags_stripped t).head?_iff (ne_of_isWhiteSpace hc (by decide))] at hhead
    obtain ⟨p, rest, ht, hp⟩ := hhead
    exact ⟨p, c, rest, ht, hp, hc⟩

/-- White space at the end of what is left. -/
theorem endsBlank_iff (t : JsString) :
    EndsBlank t ↔ ∃ c, (stripTags t).getLast? = some c ∧ isWhiteSpace c = true := by
  constructor
  · rintro ⟨front, c, p, ht, hp, hfront, hc⟩
    refine ⟨c, ?_, hc⟩
    rw [(stripTags_stripped t).getLast?_iff (ne_of_isWhiteSpace hc (by decide))
      (ne_of_isWhiteSpace hc (by decide)) (by decide)]
    exact ⟨front, p, ht, hp, hfront⟩
  · rintro ⟨c, hlast, hc⟩
    rw [(stripTags_stripped t).getLast?_iff (ne_of_isWhiteSpace hc (by decide))
      (ne_of_isWhiteSpace hc (by decide)) (by decide)] at hlast
    obtain ⟨front, p, ht, hp, hfront⟩ := hlast
    exact ⟨front, c, p, ht, hp, hfront, hc⟩

/-- What is passed on has at most 250 characters and no tag, whatever the message. -/
theorem stripTags_take (s : JsString) :
    (stripTags (s.take 250)).length ≤ 250 ∧ ¬ Encloses 0x3c 0x3e (stripTags (s.take 250)) := by
  have hstripped := stripTags_stripped (s.take 250)
  have hle := hstripped.sublist.length_le
  have htake := List.length_take_le 250 s
  exact ⟨by omega, hstripped.not_encloses⟩

/-- **When the message is clean**: exactly if its first 250 characters, from its first to its
last visible one, neither begin nor end blank around tags. -/
theorem passedOn_clean_iff (s : JsString) :
    (∀ m, passedOn (.text s) = some m → CleanMessage m) ↔
      ¬ BeginsBlank ((trim s).take 250) ∧ ¬ EndsBlank ((trim s).take 250) := by
  rw [beginsBlank_iff, endsBlank_iff]
  obtain ⟨hlength, htag⟩ := stripTags_take (trim s)
  have hpassed : passedOn (.text s) =
      if stripTags ((trim s).take 250) = [] then none
      else some (stripTags ((trim s).take 250)) := rfl
  rw [hpassed]
  generalize stripTags ((trim s).take 250) = r at hlength htag
  cases r with
  | nil => simp
  | cons x r =>
      simp only [List.cons_ne_nil, if_false, Option.some.injEq, forall_eq', not_exists, not_and,
        Bool.not_eq_true]
      constructor
      · intro hclean
        exact ⟨hclean.noLeading, hclean.noTrailing⟩
      · rintro ⟨hhead, hlast⟩
        -- its first character is visible, so the message is not blank
        exact ⟨hlength, htag, ⟨x, List.mem_cons_self, hhead x rfl⟩, hhead, hlast⟩

/-- A blank between two tags is passed on alone. -/
theorem passedOn_blank : ¬ ∀ s m, passedOn (.text s) = some m → CleanMessage m := by
  intro hclean
  have hstrip : stripTags (js "<b> <i>") = js " " := by simp [js, stripTags]
  have htext : (trim (js "<b> <i>")).take 250 = js "<b> <i>" := by decide
  have hpassed : passedOn (.text (js "<b> <i>")) = some (js " ") := by
    have hspace : js " " ≠ [] := by decide
    simp [passedOn, sanitizeInput, htext, hstrip, hspace]
  exact absurd ((hclean _ _ hpassed).noLeading 0x20 rfl) (by decide)

end Server
end InfinityLabs
