import InfinityLabs.Lib.Runs
import InfinityLabs.Server.Chat

/-!
# The chat socket

The `user-message` handler of `socket/socket.handler.js`.  A handler reads
`socket.data.chatHistory`, awaits `processMessage` on it, and then writes back
the history of the result.  While it awaits, other handlers of the same socket
start and end, so a run interleaves two steps for each handler.

A handler that ends adds the entries of its turn to the copy that it read.  No
turn is lost when the history has not changed since that read; two handlers that
overlap write back histories without each other's turn.
-/

namespace InfinityLabs
namespace Server

open Lib

/-- What `isTokenValid` does: it answers, or throws an error of another kind. -/
inductive TokenCheck where
  | valid
  | invalid
  | throws
  deriving DecidableEq, Repr

/-- `MESSAGES`, as far as the handler sends them. -/
def MESSAGES_ERROR : JsString := js "Sorry, something went wrong. Please try again."

def MESSAGES_SESSION_EXPIRED : JsString :=
  js "Your session has expired. Please refresh the page and log in again."

def MESSAGES_RATE_LIMITED : JsString :=
  js "Too many messages. Please wait a moment before sending another."

/-- What the handler emits; `requiresAuth` is false throughout. -/
inductive SocketEvent where
  | typing
  | stopTyping
  | botMessage (response : JsString) (intent : Intent) (data : Option (List Json × Json))
  | transferCompleted
  | disconnect

/-- A handler: it awaits `processMessage` on the history that it read, or it has
ended. -/
inductive Handler where
  | processing (message : Field) (history : List ChatEntry)
  | ended
  deriving DecidableEq, Repr

/-- The history of a socket, its handlers, and the turns that handlers have ended,
each as the entries that it added to the history it read. -/
structure ChatState where
  chatHistory : List ChatEntry
  handlers : List Handler
  turns : List (List ChatEntry)
  emitted : List SocketEvent

/-- One step: a message arrives, with what the token check and the rate limiter
say to it; or handler `i` resumes with the outcome of its turn. -/
inductive ChatAction where
  | arrive (message : Field) (token : TokenCheck) (allowed : Bool)
  | resume (i : Nat) (dialogue : Dialogue)

/-- The handler up to its `await`. -/
def ChatState.arrive (s : ChatState) (message : Field) (token : TokenCheck)
    (allowed : Bool) : ChatState :=
  let stop (events : List SocketEvent) : ChatState :=
    { s with handlers := s.handlers ++ [.ended], emitted := s.emitted ++ events }
  match token with
  | .throws => stop [.stopTyping, .botMessage MESSAGES_ERROR .error none]
  | .invalid => stop [.botMessage MESSAGES_SESSION_EXPIRED .error none, .disconnect]
  | .valid =>
      if allowed then
        { s with handlers := s.handlers ++ [.processing message s.chatHistory]
                 emitted := s.emitted ++ [.typing] }
      else stop [.botMessage MESSAGES_RATE_LIMITED .error none]

/-- The handler behind its `await`, for the message and the history it took. -/
def ChatState.resume (engine : Engine) (s : ChatState) (i : Nat) (dialogue : Dialogue)
    (message : Field) (history : List ChatEntry) : ChatState :=
  let result := (processMessage engine dialogue message history).1
  { chatHistory := result.chatHistory
    handlers := s.handlers.set i .ended
    turns := s.turns ++ [result.chatHistory.drop history.length]
    emitted := s.emitted ++
      [.stopTyping, .botMessage result.message result.intent result.data] ++
      if result.transferCompleted = some true then [.transferCompleted] else [] }

/-- One step. -/
def ChatState.step (engine : Engine) (s : ChatState) : ChatAction → Option ChatState
  | .arrive message token allowed => some (s.arrive message token allowed)
  | .resume i dialogue =>
      match s.handlers[i]? with
      | some (.processing message history) =>
          some (s.resume engine i dialogue message history)
      | some .ended => none
      | none => none

/-- The handlers of one socket, from its connection. -/
def chatMachine (engine : Engine) : Machine ChatState ChatAction where
  start s := s = ⟨[], [], [], []⟩
  step := ChatState.step engine

/-! ## What a turn adds -/

/-- A turn extends the history that it was given, by nothing, by the user's
message, or by the message and the assistant's reply to it. -/
theorem processMessage_chatHistory (engine : Engine) (d : Dialogue) (message : Field)
    (history : List ChatEntry) :
    ∃ turn, (processMessage engine d message history).1.chatHistory = history ++ turn ∧
      (turn = [] ∨ turn = [⟨.user, sanitizeInput message⟩] ∨
        ∃ reply, turn = [⟨.user, sanitizeInput message⟩, ⟨.assistant, reply⟩]) := by
  unfold processMessage
  by_cases hblank : sanitizeInput message = []
  · exact ⟨[], by simp [hblank], Or.inl rfl⟩
  · simp only [hblank, if_false, processWithFunctionCalling]
    split
    · exact ⟨_, rfl, Or.inr (Or.inl rfl)⟩
    · rename_i response _
      exact ⟨_, rfl, Or.inr (Or.inr ⟨response.content.getD [], rfl⟩)⟩

/-! ## Lost turns -/

/-- Once all handlers have ended, every turn with an assistant's reply stands in
the history, the message and its reply next to each other. -/
def NoTurnLost (s : ChatState) : Prop :=
  (∀ h ∈ s.handlers, h = .ended) →
    ∀ message reply, [⟨.user, message⟩, ⟨.assistant, reply⟩] ∈ s.turns →
      [⟨.user, message⟩, ⟨.assistant, reply⟩] <:+: s.chatHistory

/-- A handler resumes while the history is still the one that it read. -/
def HistoryUnchanged (s : ChatState) : ChatAction → Prop
  | .resume i _ => ∀ message history, s.handlers[i]? = some (.processing message history) →
      s.chatHistory = history
  | .arrive _ _ _ => True

/-- **A guarded step appends its turn to the history.** -/
theorem chatHistory_step {engine : Engine} {s s' : ChatState} {a : ChatAction}
    (h : s.chatHistory = s.turns.flatten) (hguard : HistoryUnchanged s a)
    (hstep : s.step engine a = some s') : s'.chatHistory = s'.turns.flatten := by
  cases a with
  | arrive message token allowed =>
      cases hstep
      unfold ChatState.arrive
      cases token with
      | throws => exact h
      | invalid => exact h
      | valid =>
          cases allowed with
          | true => exact h
          | false => exact h
  | resume i d =>
      simp only [ChatState.step] at hstep
      split at hstep
      · rename_i message history hi
        cases hstep
        -- the result extends the history that the handler read, which is the current one
        obtain ⟨turn, hturn, -⟩ := processMessage_chatHistory engine d message history
        have hfresh := hguard message history hi
        simp only [ChatState.resume, hturn, List.drop_left, List.flatten_append, ← h, hfresh]
        simp
      · cases hstep
      · cases hstep

/-- In a run whose handlers resume on an unchanged history, the history is the
sequence of the turns, none of them lost and none repeated. -/
theorem chatHistory_eq_flatten {engine : Engine} {s : ChatState}
    (h : (chatMachine engine).ReachedBy HistoryUnchanged s) :
    s.chatHistory = s.turns.flatten := by
  refine h.invariant (I := fun s => s.chatHistory = s.turns.flatten) (fun t ht => ?_)
    fun t a t' ht hguard hstep => chatHistory_step ht hguard hstep
  cases ht
  rfl

/-- **No chat turn is lost** in a run whose handlers resume on the history that
they read. -/
theorem chatHistory_noTurnLost (engine : Engine) {s : ChatState}
    (h : (chatMachine engine).ReachedBy HistoryUnchanged s) : NoTurnLost s := by
  intro _ message reply hturn
  rw [chatHistory_eq_flatten h]
  exact List.infix_of_mem_flatten hturn

/-! ## Sample runs -/

/-- A turn in which the model replies at once. -/
def sampleReply (content : String) : Dialogue where
  reply _ := .ok ⟨some (js content), []⟩
  service _ _ _ := .error []

/-- A message that passes both checks. -/
def sampleMessage (text : String) : ChatAction :=
  .arrive (.text (js text)) .valid true

/-- Two messages one after the other meet the guard, and both turns stand in the
history. -/
theorem chatHistory_noTurnLost_sample :
    ∃ s : ChatState, (chatMachine sampleEngine).ReachedBy HistoryUnchanged s ∧
      s.chatHistory.length = 4 ∧ NoTurnLost s := by
  let labels : List ChatAction :=
    [sampleMessage "hello", .resume 0 (sampleReply "Hi."),
      sampleMessage "thanks", .resume 1 (sampleReply "You are welcome.")]
  have hrun : ((chatMachine sampleEngine).run ⟨[], [], [], []⟩ labels).map
      (fun s => s.chatHistory.length) = some 4 := by
    decide +kernel
  have hadmits : (chatMachine sampleEngine).Admits HistoryUnchanged ⟨[], [], [], []⟩
      labels := by
    refine ⟨trivial, fun message history hi => ?_, trivial, fun message history hi => ?_,
      trivial⟩
    · cases hi
      rfl
    · cases hi
      rfl
  obtain ⟨s, hreached, hlength⟩ := Machine.ReachedBy.run_map (.start rfl) hadmits hrun
  exact ⟨s, hreached, hlength, chatHistory_noTurnLost sampleEngine hreached⟩

/-- Of two handlers that overlap, the second writes back a history without the
turn of the first. -/
theorem chatHistory_turnLost_overlapping :
    ¬ ∀ s : ChatState, (chatMachine sampleEngine).Reached s → NoTurnLost s := by
  intro hclaim
  have hrun : ((chatMachine sampleEngine).run ⟨[], [], [], []⟩
      [sampleMessage "hello", sampleMessage "thanks", .resume 0 (sampleReply "Hi."),
        .resume 1 (sampleReply "You are welcome.")]).map
      (fun s => (s.handlers, s.turns.head?, s.chatHistory)) =
      some ([.ended, .ended],
        some [⟨.user, js "hello"⟩, ⟨.assistant, js "Hi."⟩],
        [⟨.user, js "thanks"⟩, ⟨.assistant, js "You are welcome."⟩]) := by
    decide +kernel
  obtain ⟨s, hreached, hfacts⟩ := Machine.Reached.run_map (.start rfl) hrun
  simp only [Prod.mk.injEq] at hfacts
  obtain ⟨hhandlers, hturn, hhistory⟩ := hfacts
  have hinfix := hclaim s hreached
    (by simp [hhandlers]) (js "hello") (js "Hi.") (List.mem_of_mem_head? hturn)
  rw [hhistory] at hinfix
  have hmem : ⟨.user, js "hello"⟩ ∈
      [(⟨.user, js "thanks"⟩ : ChatEntry), ⟨.assistant, js "You are welcome."⟩] :=
    hinfix.subset List.mem_cons_self
  exact absurd hmem (by decide)

end Server
end InfinityLabs
