import InfinityLabs.Server.BalancedJson
import Mathlib.Data.List.DropRight

/-!
# The search for the payload

`parseStructuredResponse` tries one balanced block after another.  A reply has prose,
then an object with transactions, then anything.  Without a brace in the prose the first
block is the object, and it is the payload where the message of the object and the
message behind it can be joined.  A brace in the prose costs the payload: the block
that it opens is never closed, which ends the search, or it is closed behind the object,
and the search goes on behind the block.

`searchWithin` is the loop with its rounds counted; it also says at which brace it
stops.
-/

namespace InfinityLabs
namespace Server

open Lib

/-! ## White space at the ends -/

/-- `trim`'s work at the start. -/
def trimStart (s : JsString) : JsString :=
  s.dropWhile isWhiteSpace

/-- `trim`'s work at the end. -/
def trimEnd (s : JsString) : JsString :=
  (s.reverse.dropWhile isWhiteSpace).reverse

theorem trim_eq (s : JsString) : trim s = trimEnd (trimStart s) := rfl

/-- The end is trimmed from behind. -/
theorem trimEnd_cons (c : UInt16) (s : JsString) :
    trimEnd (c :: s) =
      if trimEnd s = [] then (if isWhiteSpace c then [] else [c]) else c :: trimEnd s := by
  rw [trimEnd, trimEnd, List.reverse_cons, List.dropWhile_append]
  by_cases hs : s.reverse.dropWhile isWhiteSpace = []
  · cases hc : isWhiteSpace c <;> simp [hs, hc]
  · simp [hs]

/-- The two ends are trimmed in any order. -/
theorem trimEnd_trimStart (s : JsString) : trimEnd (trimStart s) = trimStart (trimEnd s) := by
  induction s with
  | nil => rfl
  | cons c s ih =>
      rw [trimEnd_cons]
      cases hc : isWhiteSpace c with
      | true =>
          have hstart : trimStart (c :: s) = trimStart s := by simp [trimStart, hc]
          rw [hstart, ih]
          by_cases hs : trimEnd s = []
          · simp [hs]
          · simp [hs, trimStart, hc]
      | false =>
          have hstart : trimStart (c :: s) = c :: s := by simp [trimStart, hc]
          rw [hstart, trimEnd_cons, hc]
          by_cases hs : trimEnd s = []
          · simp [hs, trimStart, hc]
          · simp [hs, trimStart, hc]

/-- Trimming the end twice is trimming it once. -/
theorem trim_trimEnd (s : JsString) : trim (trimEnd s) = trim s := by
  rw [trim_eq, trimEnd_trimStart, trim_eq, trimEnd_trimStart, trimEnd, trimEnd,
    List.reverse_reverse, List.dropWhile_idempotent]

/-- White space is trimmed around a text that has none at its ends. -/
theorem trim_around {J : JsString} {a b : UInt16} (ha : J.head? = some a)
    (hb : J.getLast? = some b) (hstart : isWhiteSpace a = false) (hend : isWhiteSpace b = false)
    (P A : JsString) : trim (P ++ J ++ A) = trimStart P ++ J ++ trimEnd A := by
  obtain ⟨rest, rfl⟩ := List.head?_eq_some_iff.mp ha
  obtain ⟨front, hfront⟩ := List.getLast?_eq_some_iff.mp hb
  have hleft : trimStart (P ++ (a :: rest) ++ A) = trimStart P ++ (a :: rest) ++ A := by
    rw [trimStart, List.append_assoc, List.dropWhile_append]
    split
    · rename_i hempty
      rw [List.isEmpty_iff] at hempty
      simp [trimStart, hempty, hstart]
    · simp [trimStart]
  rw [trim_eq, hleft, hfront, trimEnd, ← List.append_assoc, List.reverse_append,
    List.reverse_append, List.dropWhile_append]
  split
  · rename_i hempty
    rw [List.isEmpty_iff] at hempty
    simp [trimEnd, hempty, hend]
  · simp [trimEnd]

/-! ## The first brace -/

/-- Behind a text without the character, it is found at once. -/
theorem indexOf_of_not_mem {c : UInt16} {P rest : JsString} (hP : c ∉ P)
    (hrest : rest.head? = some c) : indexOf c (P ++ rest) 0 = some P.length := by
  have hnone : P.findIdx? (fun ch => ch == c) = none := by
    rw [List.findIdx?_eq_none_iff]
    intro x hx
    exact beq_eq_false_iff_ne.mpr fun hxc => hP (hxc ▸ hx)
  obtain ⟨rest, rfl⟩ := List.head?_eq_some_iff.mp hrest
  simp [indexOf, List.findIdx?_append, hnone, List.findIdx?_cons]

/-- In a text with the character it is found there. -/
theorem indexOf_of_mem {c : UInt16} {P : JsString} (hP : c ∈ P) (rest : JsString) :
    ∃ start < P.length, indexOf c (P ++ rest) 0 = some start := by
  cases hfound : P.findIdx? (fun ch => ch == c) with
  | none =>
      rw [List.findIdx?_eq_none_iff] at hfound
      have hne := hfound c hP
      simp at hne
  | some start =>
      have hlt := (List.findIdx?_eq_some_iff_getElem.mp hfound).1
      exact ⟨start, hlt, by simp [indexOf, List.findIdx?_append, hfound]⟩

/-! ## The loop -/

section

variable (parse : JsString → Option Json)

/-- The loop of `parseStructuredResponse`, cut off after `rounds` rounds, with the brace
at which it returns. -/
def searchWithin (str : JsString) : Nat → Nat → Option (Option (Nat × StructuredReply))
  | 0, _ => none
  | rounds + 1, pos =>
      if pos < str.length then
        match indexOf 0x7b str pos with
        | none => some none
        | some start =>
            match findBalancedJson str start with
            | none => some none
            | some jsonStr =>
                match payloadAt parse str start jsonStr with
                | some reply => some (some (start, reply))
                | none => searchWithin str rounds (start + jsonStr.length)
      else some none

/-- One round of the loop. -/
theorem searchPayload_eq (str : JsString) (pos : Nat) :
    searchPayload parse str pos =
      if pos < str.length then
        match indexOf 0x7b str pos with
        | none => none
        | some start =>
            match findBalancedJson str start with
            | none => none
            | some jsonStr =>
                match payloadAt parse str start jsonStr with
                | some reply => some reply
                | none => searchPayload parse str (start + jsonStr.length)
      else none := by
  rw [searchPayload]
  split
  · split
    · rename_i hstart
      simp only [hstart]
    · rename_i start hstart
      simp only [hstart]
      split
      · rename_i hblock
        simp only [hblock]
      · rename_i jsonStr hblock
        cases hpayload : payloadAt parse str start jsonStr with
        | none => simp only [hblock, hpayload]
        | some reply => simp only [hblock, hpayload]
  · rfl

/-- **The loop ends**: every round moves the position on, so there are no more rounds
than characters are left, and one to see the end. -/
theorem searchWithin_ends {str : JsString} {rounds pos : Nat}
    (hrounds : str.length - pos < rounds) :
    ∃ found, searchWithin parse str rounds pos = some found ∧
      found.map Prod.snd = searchPayload parse str pos := by
  induction rounds generalizing pos with
  | zero => cases hrounds
  | succ rounds ih =>
      rw [searchWithin, searchPayload_eq]
      by_cases hpos : pos < str.length
      · rw [if_pos hpos, if_pos hpos]
        cases hstart : indexOf 0x7b str pos with
        | none => exact ⟨none, rfl, rfl⟩
        | some start =>
            have hle := le_of_indexOf hstart
            cases hblock : findBalancedJson str start with
            | none =>
                simp only [hblock]
                exact ⟨none, rfl, rfl⟩
            | some jsonStr =>
                have hblockPos := (findBalancedJson_last hblock).1
                simp only [hblock]
                cases payloadAt parse str start jsonStr with
                | some reply => exact ⟨_, rfl, rfl⟩
                -- a block is not empty, so the position moves on
                | none => exact ih (by omega)
      · rw [if_neg hpos, if_neg hpos]
        exact ⟨none, rfl, rfl⟩

/-- The loop never returns at a brace before its position. -/
theorem le_of_searchWithin {str : JsString} {rounds pos start : Nat} {reply : StructuredReply}
    (h : searchWithin parse str rounds pos = some (some (start, reply))) : pos ≤ start := by
  induction rounds generalizing pos with
  | zero => cases h
  | succ rounds ih =>
      rw [searchWithin] at h
      split at h
      · split at h
        · cases h
        · rename_i hstart
          have hle := le_of_indexOf hstart
          split at h
          · cases h
          · rename_i hblock
            split at h
            · cases h
              exact hle
            -- the loop went on behind the block
            · have hrest := ih h
              omega
      · cases h

/-! ## The payload behind prose -/

/-- `parts.join` has a text for every truthy part. -/
theorem joinParts_isSome (parts : List Json) :
    (joinParts parts).isSome = true ↔
      ∀ part ∈ parts, part.isTruthy = true → part.asText.isSome = true := by
  have hall : ∀ items : List Json, (items.mapM Json.asText).isSome = true ↔
      ∀ item ∈ items, item.asText.isSome = true := by
    intro items
    induction items with
    | nil => simp
    | cons item items ih =>
        rw [List.mapM_cons, List.forall_mem_cons, ← ih]
        cases item.asText with
        | none => simp
        | some text => cases items.mapM Json.asText <;> simp
  rw [joinParts, Option.isSome_map, hall]
  simp only [List.mem_filter, and_imp]

/-- The message of the object, and the one behind it, have a text where they are truthy. -/
def MessagesJoin (parsed : Json) (after : JsString) : Prop :=
  ∀ part ∈ [(parsed.field (js "message")).getD .null, extraMessage parse after],
    part.isTruthy = true → part.asText.isSome = true

/-- The object at `start` is the payload that is returned. -/
def ReturnsObject (content : JsString) (start : Nat) (transactions : List Json)
    (summary : Json) : Prop :=
  ∃ message, parseStructuredResponse parse content = some ⟨message, transactions, summary⟩ ∧
    searchWithin parse (trim content) ((trim content).length + 1) 0 =
      some (some (start, ⟨message, transactions, summary⟩))

/-- The body of the `try` at the object. -/
theorem payloadAt_object {P J A : JsString} {parsed : Json} {transactions : List Json}
    (hparse : parse J = some parsed)
    (htransactions : parsed.field (js "transactions") = some (.array transactions)) :
    payloadAt parse (P ++ J ++ A) P.length J =
      (joinParts [.string (trim P), (parsed.field (js "message")).getD .null,
        extraMessage parse (trim A)]).map fun message =>
          ⟨message, transactions, (parsed.field (js "summary")).getD .null⟩ := by
  have hbefore : (P ++ J ++ A).take P.length = P := by
    rw [List.append_assoc, List.take_left]
  have hafter : (P ++ J ++ A).drop (P.length + J.length) = A := by
    rw [← List.length_append, List.drop_left]
  rw [payloadAt, hparse, hbefore, hafter]
  simp only [Option.bind_eq_bind, Option.bind_some, htransactions]
  cases joinParts _ <;> rfl

/-- The messages at the object can be joined. -/
theorem joinParts_object (P A : JsString) (parsed : Json) :
    (joinParts [.string (trim P), (parsed.field (js "message")).getD .null,
      extraMessage parse (trim A)]).isSome = true ↔ MessagesJoin parse parsed (trim A) := by
  rw [joinParts_isSome, List.forall_mem_cons]
  exact and_iff_right fun _ => by simp [Json.asText]

/-- The search ends, and agrees with `parseStructuredResponse`. -/
theorem searchWithin_parse {content : JsString} {start : Nat} {reply : StructuredReply}
    (h : searchWithin parse (trim content) ((trim content).length + 1) 0 =
      some (some (start, reply))) : parseStructuredResponse parse content = some reply := by
  have hrounds : (trim content).length - 0 < (trim content).length + 1 := by omega
  obtain ⟨found, hfound, hreply⟩ := searchWithin_ends parse hrounds
  rw [h] at hfound
  rw [parseStructuredResponse, ← hreply, ← Option.some.inj hfound]
  rfl

/-- Only white space is trimmed. -/
theorem mem_trimStart {c : UInt16} (hc : isWhiteSpace c = false) (s : JsString) :
    c ∈ trimStart s ↔ c ∈ s := by
  have hsplit : s.takeWhile isWhiteSpace ++ trimStart s = s := List.takeWhile_append_dropWhile
  constructor
  · intro hmem
    rw [← hsplit]
    exact List.mem_append_right _ hmem
  · intro hmem
    rw [← hsplit] at hmem
    rcases List.mem_append.mp hmem with hspace | hmem
    · exact absurd (List.mem_takeWhile_imp hspace) (by simp [hc])
    · exact hmem

/-- The reply around an object is trimmed at its ends. -/
theorem trim_object {J : JsString} (hJ : JsonText .object J) (P A : JsString) :
    trim (P ++ J ++ A) = trimStart P ++ J ++ trimEnd A := by
  have hlast : J.getLast? = some 0x7d := by
    cases hJ <;> rw [← List.cons_append, List.getLast?_append] <;> rfl
  exact trim_around (head?_object hJ) hlast (by decide) (by decide) P A

/-- Without a brace before it the object is tried first. -/
theorem searchWithin_object {P J A : JsString} (hP : 0x7b ∉ P) (hJ : JsonText .object J)
    (rounds : Nat) :
    searchWithin parse (P ++ J ++ A) (rounds + 1) 0 =
      match payloadAt parse (P ++ J ++ A) P.length J with
      | some reply => some (some (P.length, reply))
      | none => searchWithin parse (P ++ J ++ A) rounds (P.length + J.length) := by
  have hhead : (J ++ A).head? = some 0x7b := by
    rw [List.head?_append, head?_object hJ]
    rfl
  have hstart : indexOf 0x7b (P ++ J ++ A) 0 = some P.length := by
    rw [List.append_assoc]
    exact indexOf_of_not_mem hP hhead
  have hlength : 0 < (P ++ J ++ A).length := by
    obtain ⟨rest, hrest⟩ := List.head?_eq_some_iff.mp (head?_object hJ)
    simp only [hrest, List.length_append, List.length_cons]
    omega
  rw [searchWithin, if_pos hlength, hstart]
  simp only [findBalancedJson_object hJ]

/-- With a brace before it the object is not returned: the block of the brace ends behind
the object's first character, or nowhere. -/
theorem searchWithin_ne_object {P rest : JsString} (hopen : 0x7b ∈ P) (hclose : 0x7d ∉ P)
    (rounds : Nat) (reply : StructuredReply) :
    searchWithin parse (P ++ rest) rounds 0 ≠ some (some (P.length, reply)) := by
  intro hfound
  obtain ⟨start, hlt, hstart⟩ := indexOf_of_mem hopen rest
  cases rounds with
  | zero => cases hfound
  | succ rounds =>
      rw [searchWithin, if_pos (by rw [List.length_append]; omega), hstart] at hfound
      cases hblock : findBalancedJson (P ++ rest) start with
      | none =>
          simp only [hblock] at hfound
          cases hfound
      | some block =>
          simp only [hblock] at hfound
          cases hpayload : payloadAt parse (P ++ rest) start block with
          | some other =>
              simp only [hpayload] at hfound
              -- the payload was found in the prose, before the object
              have hsame : start = P.length := (Prod.mk.inj (Option.some.inj
                (Option.some.inj hfound))).1
              omega
          | none =>
              simp only [hpayload] at hfound
              have hle := le_of_searchWithin parse hfound
              -- the block ends in the prose, which has no closing brace
              obtain ⟨hpos, hlast⟩ := findBalancedJson_last hblock
              rw [List.getElem?_append_left (by omega)] at hlast
              exact hclose (List.mem_of_getElem? hlast)

/-- **When the payload is found**: behind prose that holds no closing brace, exactly if
the prose holds no opening brace either and the messages can be joined; and the search
ends on every text. -/
theorem parseStructuredResponse_finds_iff {P J A : JsString} (hP : 0x7d ∉ P)
    (hJ : JsonText .object J) {parsed : Json} (hparse : parse J = some parsed)
    {transactions : List Json}
    (htransactions : parsed.field (js "transactions") = some (.array transactions)) :
    (ReturnsObject parse (P ++ J ++ A) (trimStart P).length transactions
        ((parsed.field (js "summary")).getD .null) ↔
      0x7b ∉ P ∧ MessagesJoin parse parsed (trim A)) ∧
    ∀ str, ∃ found, searchWithin parse str (str.length + 1) 0 = some found ∧
      found.map Prod.snd = searchPayload parse str 0 := by
  refine ⟨?_, fun str => searchWithin_ends parse (by omega)⟩
  have htrim := trim_object hJ P A
  have hopen := mem_trimStart (c := 0x7b) (by decide) P
  have hclose : 0x7d ∉ trimStart P := fun hmem => hP ((mem_trimStart (by decide) P).mp hmem)
  have hpayload := payloadAt_object parse (P := trimStart P) (A := trimEnd A) hparse htransactions
  have hjoin := joinParts_object parse (trimStart P) (trimEnd A) parsed
  rw [trim_trimEnd] at hpayload hjoin
  constructor
  · rintro ⟨message, -, hfound⟩
    rw [htrim] at hfound
    -- from a brace in the prose the search never comes to the object
    have hnone : 0x7b ∉ trimStart P := by
      intro hmem
      rw [List.append_assoc] at hfound
      exact searchWithin_ne_object parse hmem hclose _ _ hfound
    refine ⟨fun hmem => hnone (hopen.mpr hmem), hjoin.mp ?_⟩
    -- where the messages cannot be joined the search goes on behind the object
    rw [searchWithin_object parse hnone hJ, hpayload] at hfound
    cases hmessage : joinParts _ with
    | some message => rfl
    | none =>
        rw [hmessage] at hfound
        have hle := le_of_searchWithin parse hfound
        obtain ⟨rest, hrest⟩ := List.head?_eq_some_iff.mp (head?_object hJ)
        rw [hrest, List.length_cons] at hle
        omega
  · rintro ⟨hnone, hmessages⟩
    obtain ⟨message, hmessage⟩ := Option.isSome_iff_exists.mp (hjoin.mpr hmessages)
    have hfound : searchWithin parse (trim (P ++ J ++ A)) ((trim (P ++ J ++ A)).length + 1) 0 =
        some (some ((trimStart P).length,
          ⟨message, transactions, (parsed.field (js "summary")).getD .null⟩)) := by
      rw [htrim, searchWithin_object parse (fun hmem => hnone (hopen.mp hmem)) hJ, hpayload,
        hmessage]
      rfl
    exact ⟨message, searchWithin_parse parse hfound, hfound⟩

end

/-- What `JSON.parse` makes of the object without transactions; it knows no other text. -/
def sampleParse (s : JsString) : Option Json :=
  if s = noTransactions then some (.object [(js "transactions", .array [])]) else none

/-- The sample accepts texts of the grammar only. -/
theorem sampleParse_text {s : JsString} {value : Json} (h : sampleParse s = some value) :
    JsonText .element s := by
  rw [sampleParse] at h
  split at h
  · rename_i hs
    subst hs
    have hnone : JsonSpace [] := by decide
    have hvalue := JsonText.element hnone (.object noTransactions_text) hnone
    rwa [List.nil_append, List.append_nil] at hvalue
  · cases h

/-- A brace in the prose that is never closed ends the search: `null` is returned. -/
theorem parseStructuredResponse_unclosed :
    ¬ ∀ parse : JsString → Option Json,
      (∀ s value, parse s = some value → JsonText .element s) →
      ∀ P J A : JsString, 0x22 ∉ P → 0x7d ∉ P → JsonText .object J →
      ∀ parsed, parse J = some parsed →
      ∀ transactions, parsed.field (js "transactions") = some (.array transactions) →
        ∃ message, parseStructuredResponse parse (P ++ J ++ A) =
          some ⟨message, transactions, (parsed.field (js "summary")).getD .null⟩ := by
  intro hclaim
  obtain ⟨message, hreturns⟩ := hclaim sampleParse (fun _ _ => sampleParse_text)
    (js "use \x7b then ") noTransactions [] (by decide) (by decide) noTransactions_text
    (.object [(js "transactions", .array [])]) rfl [] rfl
  have hrounds : (trim (js "use \x7b then " ++ noTransactions ++ [])).length - 0 < 100 := by
    decide
  obtain ⟨found, hfound, hreply⟩ := searchWithin_ends sampleParse hrounds
  have hnothing : searchWithin sampleParse
      (trim (js "use \x7b then " ++ noTransactions ++ [])) 100 0 = some none := rfl
  rw [hnothing] at hfound
  rw [parseStructuredResponse, ← hreply, ← Option.some.inj hfound] at hreturns
  cases hreturns

/-- The payload between two words. -/
theorem parseStructuredResponse_finds_iff_sample :
    (ReturnsObject sampleParse (js "here: " ++ noTransactions ++ js " bye")
        (trimStart (js "here: ")).length [] .null ↔
      0x7b ∉ js "here: " ∧ MessagesJoin sampleParse
        (.object [(js "transactions", .array [])]) (trim (js " bye"))) ∧
    ∀ str, ∃ found, searchWithin sampleParse str (str.length + 1) 0 = some found ∧
      found.map Prod.snd = searchPayload sampleParse str 0 :=
  parseStructuredResponse_finds_iff sampleParse (by decide) noTransactions_text
    (rfl : sampleParse noTransactions = some (.object [(js "transactions", .array [])])) rfl

end Server
end InfinityLabs
