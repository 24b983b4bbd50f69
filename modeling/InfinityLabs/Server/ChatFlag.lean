import InfinityLabs.Lib.Runs
import InfinityLabs.Server.Chat

/-!
# The flag `transferCompleted`

The socket handler tells the client to refresh its data when a turn has
completed a transfer.  The service sets the flag from the names of the tools that
were called, in a response that an error replaces, and so the flag says what
happened only in some turns.  The conditions are read off the dialogue: which
rounds the model asks for, and what the services answer in them.
-/

namespace InfinityLabs
namespace Server

open Lib

section

variable (engine : Engine) (d : Dialogue)

/-- Request `r` is answered with tool calls, and a round is left to run them. -/
def Dialogue.Asks (r : Nat) (response : AssistantMessage) : Prop :=
  r < MAX_TOOL_CALL_ROUNDS ∧ d.reply r = .ok response ∧ response.toolCalls ≠ []

/-- Round `r` is asked for, and all its arguments parse. -/
def Dialogue.Completes (r : Nat) : Prop :=
  ∃ response, d.Asks r response ∧
    ∀ call ∈ response.toolCalls, parseArguments engine call ≠ none

/-- Request `r` fails, or it asks for a round in which some arguments do not parse. -/
def Dialogue.Breaks (r : Nat) : Prop :=
  (∃ e, r ≤ MAX_TOOL_CALL_ROUNDS ∧ d.reply r = .error e) ∨
    ∃ response, d.Asks r response ∧
      ∃ call ∈ response.toolCalls, parseArguments engine call = none

/-- Round `r` calls `transfer_money`. -/
def Dialogue.CallsTransfer (r : Nat) : Prop :=
  ∃ response, d.Asks r response ∧
    Tool.transfer_money.name ∈ response.toolCalls.map ToolCall.functionName

/-- A call of round `r` commits a transfer. -/
def Dialogue.CommitsTransfer (r : Nat) : Prop :=
  ∃ response, d.Asks r response ∧
    ∃ i call, response.toolCalls[i]? = some call ∧ commitsTransfer engine d r i call = true

/-- The turn ends in an error: after some completed rounds one breaks. -/
def Dialogue.Fails : Prop :=
  Until (d.Completes engine) (d.Breaks engine) 0

/-- The turn calls `transfer_money`. -/
def Dialogue.TransferCalled : Prop :=
  Until (d.Completes engine) d.CallsTransfer 0

/-- The turn commits a transfer. -/
def Dialogue.TransferCommitted : Prop :=
  Until (d.Completes engine) (d.CommitsTransfer engine) 0

/-! ## One round -/

/-- A round rejects when some arguments do not parse. -/
theorem processAllToolCalls_eq_none (r i : Nat) (calls : List ToolCall) :
    processAllToolCalls engine d r i calls = none ↔
      ∃ call ∈ calls, parseArguments engine call = none := by
  induction calls generalizing i with
  | nil => simp [processAllToolCalls]
  | cons call rest ih =>
      cases hcall : parseArguments engine call with
      | none => simp [processAllToolCalls, processToolCall, hcall]
      | some args =>
          have hrest := ih (i + 1)
          cases hresults : processAllToolCalls engine d r (i + 1) rest with
          | none =>
              rw [hresults] at hrest
              simpa [processAllToolCalls, processToolCall, hcall, hresults] using hrest
          | some results =>
              rw [hresults] at hrest
              simpa [processAllToolCalls, processToolCall, hcall, hresults] using hrest

/-- A round that commits no transfer has no call that does. -/
theorem committedTransfers_ne_nil (r i : Nat) (calls : List ToolCall) :
    committedTransfers engine d r i calls ≠ [] ↔
      ∃ j call, calls[j]? = some call ∧ commitsTransfer engine d r (i + j) call = true := by
  induction calls generalizing i with
  | nil => simp [committedTransfers]
  | cons call rest ih =>
      by_cases hcall : commitsTransfer engine d r i call = true
      · simp only [committedTransfers, hcall, if_true]
        constructor
        · intro _
          exact ⟨0, call, rfl, hcall⟩
        · intro _
          simp
      · rw [committedTransfers, if_neg hcall, List.nil_append, ih]
        constructor
        · rintro ⟨j, call', hj, hcommits⟩
          refine ⟨j + 1, call', hj, ?_⟩
          rwa [Nat.add_comm j 1, ← Nat.add_assoc]
        · rintro ⟨j, call', hj, hcommits⟩
          cases j with
          | zero =>
              cases hj
              exact absurd hcommits hcall
          | succ j =>
              refine ⟨j, call', hj, ?_⟩
              rwa [Nat.add_assoc, Nat.add_comm 1 j]

/-- The results of a round name no functions. -/
theorem extractCalledFunctionNames_results {r i : Nat} {calls : List ToolCall}
    {results : List Message}
    (h : processAllToolCalls engine d r i calls = some results) :
    extractCalledFunctionNames results = [] := by
  induction calls generalizing i results with
  | nil =>
      cases h
      rfl
  | cons call rest ih =>
      simp only [processAllToolCalls, Option.bind_eq_bind] at h
      obtain ⟨result, hresult, h⟩ := Option.bind_eq_some_iff.mp h
      obtain ⟨others, hothers, h⟩ := Option.bind_eq_some_iff.mp h
      cases h
      obtain ⟨args, -, rfl⟩ := Option.map_eq_some_iff.mp hresult
      show extractCalledFunctionNames others = []
      exact ih hothers

/-- Names are extracted message by message. -/
theorem extractCalledFunctionNames_append (messages messages' : List Message) :
    extractCalledFunctionNames (messages ++ messages') =
      extractCalledFunctionNames messages ++ extractCalledFunctionNames messages' :=
  List.flatMap_append

/-- The messages of the first request name no functions. -/
theorem extractCalledFunctionNames_build (message : JsString)
    (chatHistory : List ChatEntry) :
    extractCalledFunctionNames (buildMessagesForOpenAI message chatHistory) = [] := by
  rw [extractCalledFunctionNames, List.flatMap_eq_nil_iff]
  intro m hm
  simp only [buildMessagesForOpenAI, List.mem_append, List.mem_cons, List.mem_map,
    List.not_mem_nil, or_false] at hm
  rcases hm with (rfl | ⟨e, -, rfl⟩) | rfl
  · rfl
  · rfl
  · rfl

/-! ## The loop -/

/-- What the loop leaves when it starts with request `r` answered. -/
structure LoopSpec (r : Nat) (messages : List Message) (committed : List ToolCall)
    (loop : ToolLoop) : Prop where
  fails : (∃ e, loop.outcome = .error e) ↔ Until (d.Completes engine) (d.Breaks engine) r
  called : Tool.transfer_money.name ∈ extractCalledFunctionNames loop.messages ↔
    Tool.transfer_money.name ∈ extractCalledFunctionNames messages ∨
      Until (d.Completes engine) d.CallsTransfer r
  committed : loop.committed ≠ [] ↔
    committed ≠ [] ∨ Until (d.Completes engine) (d.CommitsTransfer engine) r

variable {engine d}

variable (engine) in
/-- Where no round is asked for, the dialogue goes no further. -/
theorem until_stop {r : Nat} (hstop : ∀ response, ¬ d.Asks r response) :
    (Until (d.Completes engine) (d.Breaks engine) r ↔ d.Breaks engine r) ∧
      ¬ Until (d.Completes engine) d.CallsTransfer r ∧
      ¬ Until (d.Completes engine) (d.CommitsTransfer engine) r := by
  have hcompletes : ¬ d.Completes engine r := fun ⟨response, hasks, _⟩ =>
    hstop response hasks
  refine ⟨?_, ?_, ?_⟩
  · rw [until_iff]
    exact or_iff_left fun h => hcompletes h.1
  · rw [until_iff]
    rintro (⟨response, hasks, -⟩ | ⟨h, -⟩)
    · exact hstop response hasks
    · exact hcompletes h
  · rw [until_iff]
    rintro (⟨response, hasks, -⟩ | ⟨h, -⟩)
    · exact hstop response hasks
    · exact hcompletes h

/-- A response that asks for no round ends the loop. -/
theorem loopSpec_stop {r : Nat} {response : AssistantMessage} {messages : List Message}
    {committed : List ToolCall} (hreply : d.reply r = .ok response)
    (hstop : ∀ response', ¬ d.Asks r response') :
    LoopSpec engine d r messages committed ⟨.ok response, messages, committed⟩ := by
  obtain ⟨hbreaks, hcalled, hcommits⟩ := until_stop engine hstop
  refine ⟨?_, ?_, ?_⟩
  · rw [hbreaks]
    constructor
    · rintro ⟨e, he⟩
      cases he
    · rintro (⟨e, -, he⟩ | ⟨response', hasks, -⟩)
      · rw [hreply] at he
        cases he
      · exact absurd hasks (hstop response')
  · exact (or_iff_left hcalled).symm
  · exact (or_iff_left hcommits).symm

/-- A round is asked for by one response. -/
theorem exists_asks_iff {r : Nat} {response : AssistantMessage}
    (hasks : d.Asks r response) {P : AssistantMessage → Prop} :
    (∃ response', d.Asks r response' ∧ P response') ↔ P response := by
  constructor
  · rintro ⟨response', ⟨-, hreply, -⟩, hP⟩
    rw [hasks.2.1] at hreply
    cases hreply
    exact hP
  · exact fun hP => ⟨response, hasks, hP⟩

variable (engine) in
/-- What round `r` is, in terms of the response that asks for it. -/
theorem round_facts {r : Nat} {response : AssistantMessage} (hasks : d.Asks r response) :
    (d.Completes engine r ↔
        processAllToolCalls engine d r 0 response.toolCalls ≠ none) ∧
      (d.Breaks engine r ↔
        processAllToolCalls engine d r 0 response.toolCalls = none) ∧
      (d.CallsTransfer r ↔
        Tool.transfer_money.name ∈ response.toolCalls.map ToolCall.functionName) ∧
      (d.CommitsTransfer engine r ↔
        committedTransfers engine d r 0 response.toolCalls ≠ []) := by
  refine ⟨?_, ?_, exists_asks_iff hasks, ?_⟩
  · rw [ne_eq, processAllToolCalls_eq_none, Dialogue.Completes, exists_asks_iff hasks]
    simp only [not_exists, not_and, ne_eq]
  · rw [processAllToolCalls_eq_none, Dialogue.Breaks, exists_asks_iff hasks]
    refine or_iff_right ?_
    rintro ⟨e, -, hreply⟩
    rw [hasks.2.1] at hreply
    cases hreply
  · rw [committedTransfers_ne_nil, Dialogue.CommitsTransfer, exists_asks_iff hasks]
    simp only [Nat.zero_add]

/-- A request that fails ends the loop. -/
theorem loopSpec_error {r : Nat} {e : JsString} (hr : r ≤ MAX_TOOL_CALL_ROUNDS)
    (hreply : d.reply r = .error e) (messages : List Message) (committed : List ToolCall) :
    LoopSpec engine d r messages committed ⟨.error e, messages, committed⟩ := by
  have hstop : ∀ response, ¬ d.Asks r response := by
    rintro response ⟨-, hasks, -⟩
    rw [hreply] at hasks
    cases hasks
  obtain ⟨hbreaks, hcalled, hcommits⟩ := until_stop engine hstop
  refine ⟨?_, (or_iff_left hcalled).symm, (or_iff_left hcommits).symm⟩
  rw [hbreaks]
  exact ⟨fun _ => Or.inl ⟨e, hr, hreply⟩, fun _ => ⟨e, rfl⟩⟩

/-- The names called once a response is pushed. -/
theorem mem_called_push (name : JsString) (messages : List Message)
    (response : AssistantMessage) :
    name ∈ extractCalledFunctionNames (messages ++ [.assistant response]) ↔
      name ∈ extractCalledFunctionNames messages ∨
        name ∈ response.toolCalls.map ToolCall.functionName := by
  rw [extractCalledFunctionNames_append, List.mem_append]
  simp [extractCalledFunctionNames, Message.calledNames]

section Round

variable {r : Nat} {response : AssistantMessage} (hasks : d.Asks r response)
  (messages : List Message) (committed : List ToolCall)

include hasks

/-- A round that rejects ends the loop: nothing behind it counts, but its commits
do. -/
theorem loopSpec_reject (hresults : processAllToolCalls engine d r 0 response.toolCalls = none)
    (e : JsString) :
    LoopSpec engine d r messages committed
      ⟨.error e, messages ++ [.assistant response],
        committed ++ committedTransfers engine d r 0 response.toolCalls⟩ := by
  obtain ⟨hcompletes, hbreaks, hcalled, hcommits⟩ := round_facts engine hasks
  have hlast : ∀ Q : Nat → Prop, ¬ (d.Completes engine r ∧ Q (r + 1)) := fun Q h =>
    hcompletes.mp h.1 hresults
  refine ⟨?_, ?_, ?_⟩
  · rw [until_iff]
    exact ⟨fun _ => Or.inl (hbreaks.mpr hresults), fun _ => ⟨e, rfl⟩⟩
  · rw [until_iff, or_iff_left (hlast _), hcalled]
    exact mem_called_push _ messages response
  · rw [until_iff, or_iff_left (hlast _), hcommits]
    simp only [ne_eq, List.append_eq_nil_iff]
    exact not_and_or

/-- A round that completes hands over to the next request. -/
theorem loopSpec_next {results : List Message} {loop : ToolLoop}
    (hresults : processAllToolCalls engine d r 0 response.toolCalls = some results)
    (hnext : LoopSpec engine d (r + 1) (messages ++ [.assistant response] ++ results)
      (committed ++ committedTransfers engine d r 0 response.toolCalls) loop) :
    LoopSpec engine d r messages committed loop := by
  obtain ⟨hcompletes, hbreaks, hcalled, hcommits⟩ := round_facts engine hasks
  have hround : d.Completes engine r := by
    rw [hcompletes, hresults]
    exact Option.some_ne_none _
  have hwhole : ¬ d.Breaks engine r := by
    rw [hbreaks, hresults]
    exact Option.some_ne_none _
  refine ⟨?_, ?_, ?_⟩
  · rw [until_iff, or_iff_right hwhole, hnext.fails]
    exact (and_iff_right hround).symm
  · rw [until_iff, and_iff_right hround, hcalled, hnext.called,
      extractCalledFunctionNames_append, extractCalledFunctionNames_results engine d hresults,
      List.append_nil, mem_called_push]
    exact or_assoc
  · rw [until_iff, and_iff_right hround, hcommits, hnext.committed]
    simp only [ne_eq, List.append_eq_nil_iff]
    rw [not_and_or]
    exact or_assoc

end Round

/-- **The loop follows the dialogue**, from any request that was answered. -/
theorem handleToolCallLoop_spec (left : Nat) (hleft : left ≤ MAX_TOOL_CALL_ROUNDS)
    {response : AssistantMessage} (messages : List Message) (committed : List ToolCall)
    (hreply : d.reply (MAX_TOOL_CALL_ROUNDS - left) = .ok response) :
    LoopSpec engine d (MAX_TOOL_CALL_ROUNDS - left) messages committed
      (handleToolCallLoop engine d left response messages committed) := by
  induction left generalizing response messages committed with
  | zero =>
      exact loopSpec_stop hreply fun response' hasks => absurd hasks.1 (by simp)
  | succ left ih =>
      unfold handleToolCallLoop
      split
      · rename_i hempty
        apply loopSpec_stop hreply
        intro response' hasks
        apply hasks.2.2
        have hsame := hasks.2.1
        rw [hreply] at hsame
        cases hsame
        exact hempty
      · rename_i hcalls
        have hasks : d.Asks (MAX_TOOL_CALL_ROUNDS - (left + 1)) response :=
          ⟨by omega, hreply, hcalls⟩
        have hround : MAX_TOOL_CALL_ROUNDS - (left + 1) + 1 = MAX_TOOL_CALL_ROUNDS - left := by
          omega
        dsimp only
        split
        · rename_i hresults
          exact loopSpec_reject hasks messages committed hresults _
        · rename_i results hresults
          apply loopSpec_next hasks messages committed hresults
          split
          · rename_i e hnext
            exact loopSpec_error (by omega) hnext _ _
          · rename_i response' hnext
            rw [hround] at hnext ⊢
            exact ih (by omega) _ _ hnext

variable (engine d) in
/-- **The turn follows the dialogue.** -/
theorem runToolLoop_spec (message : JsString) (chatHistory : List ChatEntry) :
    ((∃ e, (runToolLoop engine d message chatHistory).outcome = .error e) ↔
        d.Fails engine) ∧
      (Tool.transfer_money.name ∈
          extractCalledFunctionNames (runToolLoop engine d message chatHistory).messages ↔
        d.TransferCalled engine) ∧
      ((runToolLoop engine d message chatHistory).committed ≠ [] ↔
        d.TransferCommitted engine) := by
  have hspec : LoopSpec engine d 0 (buildMessagesForOpenAI message chatHistory) []
      (runToolLoop engine d message chatHistory) := by
    unfold runToolLoop
    dsimp only
    split
    · rename_i e hreply
      exact loopSpec_error (Nat.zero_le _) hreply _ _
    · rename_i response hreply
      exact handleToolCallLoop_spec MAX_TOOL_CALL_ROUNDS (Nat.le_refl _) _ _ hreply
  refine ⟨hspec.fails, ?_, ?_⟩
  · rw [hspec.called, extractCalledFunctionNames_build]
    exact or_iff_right List.not_mem_nil
  · rw [hspec.committed]
    exact or_iff_right fun h => h rfl

variable (engine d) in
/-- A committed transfer was called. -/
theorem transferCalled_of_committed (h : d.TransferCommitted engine) :
    d.TransferCalled engine := by
  refine Until.mono (fun r => ?_) h
  rintro ⟨response, hasks, i, call, hi, hcommits⟩
  refine ⟨response, hasks, List.mem_map.mpr ⟨call, List.mem_of_getElem? hi, ?_⟩⟩
  rw [commitsTransfer, Bool.and_eq_true, beq_iff_eq] at hcommits
  exact hcommits.1

end

/-! ## When the flag is truthful -/

/-- The turn says that a transfer was completed exactly when one was. -/
def FlagTruthful (turn : ChatResult × List ToolCall) : Prop :=
  turn.1.transferCompleted = some true ↔ turn.2 ≠ []

/-- **The flag is truthful** exactly for a blank message, and for a turn that
commits no transfer if it fails, and otherwise commits one if it calls
`transfer_money`. -/
theorem transferCompleted_truthful (engine : Engine) (d : Dialogue) (message : Field)
    (chatHistory : List ChatEntry) :
    FlagTruthful (processMessage engine d message chatHistory) ↔
      sanitizeInput message = [] ∨
        (d.Fails engine → ¬ d.TransferCommitted engine) ∧
          (¬ d.Fails engine → d.TransferCalled engine → d.TransferCommitted engine) := by
  unfold FlagTruthful processMessage
  by_cases hblank : sanitizeInput message = []
  · simp [hblank]
  · obtain ⟨hfails, hcalled, hcommitted⟩ :=
      runToolLoop_spec engine d (sanitizeInput message) chatHistory
    simp only [hblank, if_false, false_or, processWithFunctionCalling]
    rw [← hfails, ← hcalled, ← hcommitted]
    cases houtcome : (runToolLoop engine d (sanitizeInput message) chatHistory).outcome with
    | error e =>
        -- the error response drops the flag
        have herror : ∃ e', (Except.error e : Except JsString AssistantMessage) = .error e' :=
          ⟨e, rfl⟩
        simp only [buildErrorResponse, Option.getD_none, Option.some.injEq,
          Bool.false_eq_true, false_iff, herror, true_imp_iff, not_true_eq_false,
          false_imp_iff, and_true]
    | ok response =>
        have hreplied : ¬ ∃ e', (Except.ok response : Except JsString AssistantMessage) =
            .error e' := fun ⟨e', he'⟩ => by cases he'
        have hnamed := transferCalled_of_committed engine d
        rw [← hcalled, ← hcommitted] at hnamed
        simp only [buildResponse, Option.getD_some, Option.some.injEq, List.contains_iff_mem,
          hreplied, false_imp_iff, true_and, not_false_eq_true, true_imp_iff]
        exact ⟨fun h => h.mp, fun h => ⟨h, hnamed⟩⟩

/-- A turn that calls `transfer_money` once: the service's answer to the call, and
the reply to the request behind it. -/
def sampleDialogue (answer : Except JsString Json)
    (last : Except JsString AssistantMessage) : Dialogue where
  reply r :=
    if r = 0 then .ok ⟨none, [⟨js "call_1", js "transfer_money", sampleArguments⟩]⟩ else last
  service _ _ _ := answer

/-- A transfer that is rejected is reported as completed. -/
theorem transferCompleted_rejected :
    ¬ ∀ (engine : Engine) (d : Dialogue) (message : Field) (chatHistory : List ChatEntry),
      FlagTruthful (processMessage engine d message chatHistory) := by
  intro hclaim
  have hflag := hclaim sampleEngine
    (sampleDialogue (.error (js "Insufficient balance"))
      (.ok ⟨some (js "The transfer failed."), []⟩)) (.text (js "yes")) []
  revert hflag
  unfold FlagTruthful
  decide +kernel

/-- A committed transfer is not reported when the request behind it fails. -/
example :
    let turn := processMessage sampleEngine
      (sampleDialogue (.ok (.object [])) (.error (js "Connection error.")))
      (.text (js "yes")) []
    turn.1.transferCompleted = some false ∧ turn.2.length = 1 := by
  decide +kernel

end Server
end InfinityLabs
