import InfinityLabs.Lib.SlotSet
import InfinityLabs.Server.JsString
import Mathlib.Data.List.Induction
import Mathlib.Logic.Function.Basic

/-!
# The registry of sockets

`SocketRegistry` of `socket.handler.js` keeps a set of sockets for each user.  A set is
an object that the map refers to, so `disconnectUser` goes on walking over it when a
disconnected socket removes itself and when the last one takes the set out of the map.

What the disconnection of a socket removes is part of the call: `removals socket` are the
users for whom `remove` is called with this socket before `socket.disconnect` returns.
-/

namespace InfinityLabs
namespace Server

open Lib

/-- What `disconnectUser` sends: a `bot-message`, and the end of the connection. -/
inductive RegistryEvent (σ : Type) where
  | botMessage (socket : σ) (response intent : JsString)
  | disconnect (socket : σ)

/-- `SocketRegistry`: the set that belongs to a user, the values of the sets that were
created, and their number. -/
structure SocketRegistry (υ σ : Type) where
  sockets : υ → Option Nat
  sets : Nat → SlotSet σ
  next : Nat

namespace SocketRegistry

variable {υ σ : Type}

/-- A new registry. -/
def empty : SocketRegistry υ σ :=
  ⟨fun _ => none, fun _ => [], 0⟩

variable [DecidableEq υ] [DecidableEq σ]

/-- `this.#sockets.delete(userId)`. -/
def deleteUser (registry : SocketRegistry υ σ) (userId : υ) : SocketRegistry υ σ :=
  { registry with sockets := Function.update registry.sockets userId none }

/-- The set object `set` gets other values. -/
def putSet (registry : SocketRegistry υ σ) (set : Nat) (slots : SlotSet σ) :
    SocketRegistry υ σ :=
  { registry with sets := Function.update registry.sets set slots }

/-- `this.#sockets.set(userId, new Set())`. -/
def newSet (registry : SocketRegistry υ σ) (userId : υ) : SocketRegistry υ σ where
  sockets := Function.update registry.sockets userId (some registry.next)
  sets := Function.update registry.sets registry.next []
  next := registry.next + 1

/-- `add`. -/
def add (registry : SocketRegistry υ σ) (userId : υ) (socket : σ) : SocketRegistry υ σ :=
  let registry := if (registry.sockets userId).isNone then registry.newSet userId else registry
  match registry.sockets userId with
  | none => registry
  | some set => registry.putSet set ((registry.sets set).add socket)

/-- `remove`. -/
def remove (registry : SocketRegistry υ σ) (userId : υ) (socket : σ) : SocketRegistry υ σ :=
  match registry.sockets userId with
  | none => registry
  | some set =>
      let registry := registry.putSet set ((registry.sets set).delete socket)
      if (registry.sets set).size = 0 then registry.deleteUser userId else registry

/-- What the disconnection of a socket calls: `remove` for each of the users. -/
def removeAll (registry : SocketRegistry υ σ) (users : List υ) (socket : σ) :
    SocketRegistry υ σ :=
  users.foldl (fun registry userId => registry.remove userId socket) registry

/-- The loop of `disconnectUser` over the slots of `set` from slot `i`.  A disconnection
adds no socket, so the number of slots stays. -/
def disconnectSlots (message : JsString) (removals : σ → List υ) (set : Nat) :
    (remaining i : Nat) → SocketRegistry υ σ → SocketRegistry υ σ × List (RegistryEvent σ)
  | 0, _, registry => (registry, [])
  | remaining + 1, i, registry =>
      match (registry.sets set)[i]? with
      | some (some socket) =>
          let result := disconnectSlots message removals set remaining (i + 1)
            (registry.removeAll (removals socket) socket)
          (result.1, .botMessage socket message (js "error") :: .disconnect socket :: result.2)
      | some none => disconnectSlots message removals set remaining (i + 1) registry
      | none => (registry, [])

/-- `disconnectUser`. -/
def disconnectUser (registry : SocketRegistry υ σ) (userId : υ) (message : JsString)
    (removals : σ → List υ) : SocketRegistry υ σ × List (RegistryEvent σ) :=
  match registry.sockets userId with
  | none => (registry, [])
  | some set =>
      let result := disconnectSlots message removals set (registry.sets set).length 0 registry
      (result.1.deleteUser userId, result.2)

/-! ## Calls -/

/-- The calls on a registry. -/
inductive Call (υ σ : Type) where
  | add (userId : υ) (socket : σ)
  | remove (userId : υ) (socket : σ)
  | disconnectUser (userId : υ) (message : JsString) (removals : σ → List υ)

/-- The registry after a call. -/
def call (registry : SocketRegistry υ σ) : Call υ σ → SocketRegistry υ σ
  | .add userId socket => registry.add userId socket
  | .remove userId socket => registry.remove userId socket
  | .disconnectUser userId message removals =>
      (registry.disconnectUser userId message removals).1

/-- The registry after some calls. -/
def after (registry : SocketRegistry υ σ) (calls : List (Call υ σ)) : SocketRegistry υ σ :=
  calls.foldl call registry

/-! ## What a registry is for -/

/-- The socket is tracked for the user. -/
def Tracked (registry : SocketRegistry υ σ) (userId : υ) (socket : σ) : Prop :=
  ∃ set, registry.sockets userId = some set ∧ some socket ∈ registry.sets set

/-- The sockets that are live after a call: a socket is live from its addition until it
is removed or its user is disconnected. -/
def LiveAfter (live : υ → σ → Prop) : Call υ σ → υ → σ → Prop
  | .add userId socket, user, other => (user = userId ∧ other = socket) ∨ live user other
  | .remove userId socket, user, other => ¬ (user = userId ∧ other = socket) ∧ live user other
  | .disconnectUser userId _ removals, user, other =>
      user ≠ userId ∧ ¬ (live userId other ∧ user ∈ removals other) ∧ live user other

/-- The sockets that are live after some calls. -/
def Live : List (Call υ σ) → υ → σ → Prop :=
  List.foldl LiveAfter fun _ _ => False

/-! ## The invariant -/

/-- The sets that the map refers to belong to one user each, and no socket is in a set
twice. -/
structure Separate (registry : SocketRegistry υ σ) : Prop where
  owned : ∀ u v set, registry.sockets u = some set → registry.sockets v = some set → u = v
  created : ∀ u set, registry.sockets u = some set → set < registry.next
  distinct : ∀ set, (registry.sets set).Distinct

/-- No user is kept with an empty set. -/
def NoneEmpty (registry : SocketRegistry υ σ) : Prop :=
  ∀ u set, registry.sockets u = some set → ∃ s, some s ∈ registry.sets set

/-- The invariant between the calls. -/
structure Wf (registry : SocketRegistry υ σ) : Prop where
  separate : registry.Separate
  noneEmpty : registry.NoneEmpty

omit [DecidableEq υ] [DecidableEq σ] in
theorem wf_empty : (empty : SocketRegistry υ σ).Wf := by
  refine ⟨⟨fun u v set hu => ?_, fun u set hu => ?_, fun _ => SlotSet.distinct_nil⟩,
    fun u set hu => ?_⟩
  all_goals cases hu

omit [DecidableEq σ] in
/-- Taking a user out of the map. -/
theorem Separate.deleteUser {registry : SocketRegistry υ σ} (h : registry.Separate)
    (userId : υ) : (registry.deleteUser userId).Separate ∧
      ∀ u set, (registry.deleteUser userId).sockets u = some set →
        u ≠ userId ∧ registry.sockets u = some set := by
  have hkept : ∀ u set, (registry.deleteUser userId).sockets u = some set →
      u ≠ userId ∧ registry.sockets u = some set := by
    intro u set hu
    by_cases hsame : u = userId
    · subst hsame
      simp [SocketRegistry.deleteUser] at hu
    · exact ⟨hsame, by simpa [SocketRegistry.deleteUser, hsame] using hu⟩
  exact ⟨⟨fun u v set hu hv => h.owned u v set (hkept u set hu).2 (hkept v set hv).2,
    fun u set hu => h.created u set (hkept u set hu).2, h.distinct⟩, hkept⟩

omit [DecidableEq σ] in
/-- The user taken out has no sockets; the others keep theirs. -/
theorem tracked_deleteUser (registry : SocketRegistry υ σ) (userId user : υ) (socket : σ) :
    (registry.deleteUser userId).Tracked user socket ↔
      user ≠ userId ∧ registry.Tracked user socket := by
  by_cases hsame : user = userId
  · subst hsame
    simp [Tracked, deleteUser]
  · simp [Tracked, deleteUser, hsame]

omit [DecidableEq υ] [DecidableEq σ] in
/-- Other values for a set. -/
theorem Separate.putSet {registry : SocketRegistry υ σ} (h : registry.Separate) (set : Nat)
    {slots : SlotSet σ} (hdistinct : slots.Distinct) : (registry.putSet set slots).Separate := by
  refine ⟨h.owned, h.created, fun other => ?_⟩
  by_cases hsame : other = set
  · subst hsame
    simpa [SocketRegistry.putSet] using hdistinct
  · simpa [SocketRegistry.putSet, hsame] using h.distinct other

omit [DecidableEq σ] in
/-- A set is tracked for its user alone. -/
theorem Separate.tracked_putSet {registry : SocketRegistry υ σ} (h : registry.Separate)
    {userId : υ} {set : Nat} (hset : registry.sockets userId = some set) (slots : SlotSet σ)
    (user : υ) (socket : σ) :
    (registry.putSet set slots).Tracked user socket ↔
      if user = userId then some socket ∈ slots else registry.Tracked user socket := by
  by_cases hsame : user = userId
  · subst hsame
    simp [Tracked, SocketRegistry.putSet, hset]
  · rw [if_neg hsame]
    refine exists_congr fun other => and_congr_right fun hother => ?_
    have hne : other ≠ set := fun heq => hsame (h.owned user userId set (heq ▸ hother) hset)
    simp [SocketRegistry.putSet, hne]

omit [DecidableEq υ] [DecidableEq σ] in
/-- A set that is not empty among others that are not. -/
theorem noneEmpty_putSet {registry : SocketRegistry υ σ} {set : Nat} {slots : SlotSet σ}
    (hslots : ∃ s, some s ∈ slots)
    (hothers : ∀ u other, registry.sockets u = some other → other ≠ set →
      ∃ s, some s ∈ registry.sets other) : (registry.putSet set slots).NoneEmpty := by
  intro u other hu
  by_cases hsame : other = set
  · subst hsame
    simpa [putSet] using hslots
  · simpa [putSet, hsame] using hothers u other hu hsame

/-! ## Adding and removing -/

omit [DecidableEq σ] in
/-- A new set is empty, and no other user has it. -/
theorem newSet_spec {registry : SocketRegistry υ σ} (h : registry.Wf) {userId : υ}
    (hnone : registry.sockets userId = none) :
    (registry.newSet userId).Separate ∧
      (∀ u set, (registry.newSet userId).sockets u = some set → set ≠ registry.next →
        ∃ s, some s ∈ (registry.newSet userId).sets set) ∧
        ∀ user socket, (registry.newSet userId).Tracked user socket ↔
          registry.Tracked user socket := by
  have hold : ∀ u set, registry.sockets u = some set → set ≠ registry.next :=
    fun u set hu => Nat.ne_of_lt (h.separate.created u set hu)
  have hsockets : ∀ u set, (registry.newSet userId).sockets u = some set →
      u = userId ∧ set = registry.next ∨ u ≠ userId ∧ registry.sockets u = some set := by
    intro u set hu
    by_cases hsame : u = userId
    · subst hsame
      exact Or.inl ⟨rfl, by simpa [newSet, eq_comm] using hu⟩
    · exact Or.inr ⟨hsame, by simpa [newSet, hsame] using hu⟩
  refine ⟨⟨fun u v set hu hv => ?_, fun u set hu => ?_, fun set => ?_⟩, fun u set hu hne => ?_,
    fun user socket => ?_⟩
  · rcases hsockets u set hu with ⟨hu, hset⟩ | ⟨-, hu⟩
    · rcases hsockets v set hv with ⟨hv, -⟩ | ⟨-, hv⟩
      · exact hu.trans hv.symm
      · exact absurd hset (hold v set hv)
    · rcases hsockets v set hv with ⟨-, hset⟩ | ⟨-, hv⟩
      · exact absurd hset (hold u set hu)
      · exact h.separate.owned u v set hu hv
  · rcases hsockets u set hu with ⟨-, rfl⟩ | ⟨-, hu⟩
    · exact Nat.lt_succ_self _
    · exact Nat.lt_succ_of_lt (h.separate.created u set hu)
  · by_cases hsame : set = registry.next
    · subst hsame
      simpa [newSet] using SlotSet.distinct_nil
    · simpa [newSet, hsame] using h.separate.distinct set
  · rcases hsockets u set hu with ⟨-, hset⟩ | ⟨-, hu⟩
    · exact absurd hset hne
    · simpa [newSet, hne] using h.noneEmpty u set hu
  · by_cases hsame : user = userId
    · subst hsame
      simp [Tracked, newSet, hnone]
    · refine exists_congr fun set => ?_
      simp only [newSet, ne_eq, hsame, not_false_eq_true, Function.update_of_ne]
      refine and_congr_right fun hset => ?_
      rw [Function.update_of_ne (hold user set hset)]

/-- **What `add` does.** -/
theorem add_spec {registry : SocketRegistry υ σ} (h : registry.Wf) (userId : υ) (socket : σ) :
    (registry.add userId socket).Wf ∧ ∀ user other,
      (registry.add userId socket).Tracked user other ↔
        (user = userId ∧ other = socket) ∨ registry.Tracked user other := by
  -- after the first line the user has a set, which alone may be empty
  obtain ⟨ready, set, hready, hset, hseparate, hothers, htracked⟩ :
      ∃ ready set, (if (registry.sockets userId).isNone then registry.newSet userId
          else registry) = ready ∧ ready.sockets userId = some set ∧ ready.Separate ∧
        (∀ u other, ready.sockets u = some other → other ≠ set →
          ∃ s, some s ∈ ready.sets other) ∧
        ∀ user other, ready.Tracked user other ↔ registry.Tracked user other := by
    cases hset : registry.sockets userId with
    | some set =>
        exact ⟨registry, set, rfl, hset, h.separate, fun u other hu _ => h.noneEmpty u other hu,
          fun _ _ => Iff.rfl⟩
    | none =>
        obtain ⟨hseparate, hothers, htracked⟩ := newSet_spec h hset
        exact ⟨registry.newSet userId, registry.next, rfl, by simp [newSet], hseparate, hothers,
          htracked⟩
  have hadd : registry.add userId socket =
      ready.putSet set ((ready.sets set).add socket) := by
    simp only [add, hready, hset]
  rw [hadd]
  refine ⟨⟨hseparate.putSet set ((hseparate.distinct set).add socket),
    noneEmpty_putSet ⟨socket, SlotSet.mem_add.mpr (Or.inl rfl)⟩ hothers⟩, fun user other => ?_⟩
  rw [hseparate.tracked_putSet hset, ← htracked]
  by_cases hsame : user = userId
  · subst hsame
    simp [Tracked, hset, SlotSet.mem_add]
  · simp [hsame]

/-- The set of a user without a socket: this socket alone is no longer tracked. -/
theorem Separate.tracked_delete {registry : SocketRegistry υ σ} (h : registry.Separate)
    {userId : υ} {set : Nat} (hset : registry.sockets userId = some set) (socket : σ)
    (user : υ) (other : σ) :
    (registry.putSet set ((registry.sets set).delete socket)).Tracked user other ↔
      ¬ (user = userId ∧ other = socket) ∧ registry.Tracked user other := by
  rw [h.tracked_putSet hset]
  by_cases hsame : user = userId
  · subst hsame
    simp [Tracked, hset, SlotSet.mem_delete]
  · simp [hsame]

omit [DecidableEq υ] in
/-- It empties the slots of this socket, and no others. -/
theorem slot_putSet_delete {registry : SocketRegistry υ σ} {set other i : Nat} {socket : σ}
    (hne : (registry.sets other)[i]? ≠ some (some socket)) :
    ((registry.putSet set ((registry.sets set).delete socket)).sets other)[i]? =
      (registry.sets other)[i]? := by
  by_cases hsame : other = set
  · subst hsame
    simp [putSet, SlotSet.getElem?_delete_of_ne hne]
  · simp [putSet, hsame]

/-- **What `remove` does**: it takes the socket of the user, and the user with the last
one; in the sets it empties slots of this socket. -/
theorem remove_spec {registry : SocketRegistry υ σ} (h : registry.Wf) (userId : υ)
    (socket : σ) :
    (registry.remove userId socket).Wf ∧
      (∀ user other, (registry.remove userId socket).Tracked user other ↔
        ¬ (user = userId ∧ other = socket) ∧ registry.Tracked user other) ∧
      (∀ u set, (registry.remove userId socket).sockets u = some set →
        registry.sockets u = some set) ∧
      ∀ (set i : Nat), (registry.sets set)[i]? ≠ some (some socket) →
        ((registry.remove userId socket).sets set)[i]? = (registry.sets set)[i]? := by
  rw [remove]
  cases hset : registry.sockets userId with
  | none =>
      refine ⟨h, fun user other => ?_, fun _ _ hu => hu, fun _ _ _ => rfl⟩
      refine (and_iff_right_of_imp fun htracked => ?_).symm
      rintro ⟨rfl, -⟩
      obtain ⟨set, hsome, -⟩ := htracked
      rw [hset] at hsome
      cases hsome
  | some set =>
      have hvalue : (registry.putSet set ((registry.sets set).delete socket)).sets set =
          (registry.sets set).delete socket := Function.update_self ..
      have hseparate := h.separate.putSet set ((h.separate.distinct set).delete socket)
      have htracked := h.separate.tracked_delete hset socket
      simp only [hvalue]
      split
      · -- the last socket is gone, and the user with it
        rename_i hempty
        rw [SlotSet.size_eq_zero] at hempty
        obtain ⟨hdeleted, hkept⟩ := hseparate.deleteUser userId
        refine ⟨⟨hdeleted, fun u other hu => ?_⟩, fun user other => ?_,
          fun u other hu => (hkept u other hu).2, fun _ _ => slot_putSet_delete⟩
        · obtain ⟨hne, hold⟩ := hkept u other hu
          -- the emptied set was that of `userId` alone
          have hother : other ≠ set := fun heq =>
            hne (h.separate.owned u userId set (heq ▸ hold) hset)
          simpa [deleteUser, putSet, hother] using h.noneEmpty u other hold
        · rw [tracked_deleteUser, ← htracked]
          refine and_iff_right_of_imp fun hother hsame => ?_
          rw [h.separate.tracked_putSet hset, if_pos hsame] at hother
          exact hempty other hother
      · rename_i hsome
        rw [SlotSet.size_eq_zero, not_forall] at hsome
        refine ⟨⟨hseparate, noneEmpty_putSet ?_ fun u other hu _ => h.noneEmpty u other hu⟩,
          htracked, fun _ _ hu => hu, fun _ _ => slot_putSet_delete⟩
        exact hsome.imp fun s hs => Decidable.not_not.mp hs

/-- **What a disconnection removes**: the socket, for each of the users. -/
theorem removeAll_spec {registry : SocketRegistry υ σ} (h : registry.Wf) (users : List υ)
    (socket : σ) :
    (registry.removeAll users socket).Wf ∧
      (∀ user other, (registry.removeAll users socket).Tracked user other ↔
        ¬ (user ∈ users ∧ other = socket) ∧ registry.Tracked user other) ∧
      (∀ u set, (registry.removeAll users socket).sockets u = some set →
        registry.sockets u = some set) ∧
      ∀ (set i : Nat), (registry.sets set)[i]? ≠ some (some socket) →
        ((registry.removeAll users socket).sets set)[i]? = (registry.sets set)[i]? := by
  induction users generalizing registry with
  | nil => exact ⟨h, fun user other => by simp [removeAll], fun _ _ hu => hu, fun _ _ _ => rfl⟩
  | cons userId users ih =>
      obtain ⟨hwf, htracked, hsockets, hslots⟩ := remove_spec h userId socket
      obtain ⟨hwf', htracked', hsockets', hslots'⟩ := ih hwf
      refine ⟨hwf', fun user other => ?_, fun u set hu => hsockets u set (hsockets' u set hu),
        fun set i hne => ?_⟩
      -- the first user, then the others
      · show ((registry.remove userId socket).removeAll users socket).Tracked user other ↔ _
        rw [htracked', htracked, List.mem_cons, ← and_assoc]
        refine and_congr_left fun _ => ?_
        tauto
      · have hfirst := hslots set i hne
        exact (hslots' set i (hfirst ▸ hne)).trans hfirst

/-! ## Disconnecting a user -/

/-- What is done with a socket. -/
def eventsOf (message : JsString) (socket : σ) : List (RegistryEvent σ) :=
  [.botMessage socket message (js "error"), .disconnect socket]

/-- **The walk over a set**: it disconnects the sockets that the set held at its start,
each when its slot is reached, although the set shrinks under it. -/
theorem disconnectSlots_spec (message : JsString) (removals : σ → List υ) (set : Nat)
    {slots : SlotSet σ} (hdistinct : slots.Distinct) {remaining i : Nat}
    (hremaining : i + remaining = slots.length) {registry : SocketRegistry υ σ}
    (h : registry.Wf) (hslots : ∀ j, i ≤ j → (registry.sets set)[j]? = slots[j]?) :
    ((disconnectSlots message removals set remaining i registry).1.Wf ∧
      (∀ user other,
        (disconnectSlots message removals set remaining i registry).1.Tracked user other ↔
          ¬ (other ∈ SlotSet.values (slots.drop i) ∧ user ∈ removals other) ∧
            registry.Tracked user other)) ∧
      (disconnectSlots message removals set remaining i registry).2 =
        (SlotSet.values (slots.drop i)).flatMap (eventsOf message) := by
  induction remaining generalizing i registry with
  | zero =>
      have hend : slots.drop i = [] := List.drop_eq_nil_of_le (by omega)
      simp [disconnectSlots, hend, SlotSet.values, h]
  | succ remaining ih =>
      have hlt : i < slots.length := by omega
      have hdrop := List.drop_eq_getElem_cons hlt
      have hslot : (registry.sets set)[i]? = some slots[i] := by
        rw [hslots i (Nat.le_refl i), List.getElem?_eq_getElem hlt]
      rw [disconnectSlots, hslot, hdrop]
      cases hvalue : slots[i] with
      | none =>
          -- a slot that is empty is passed over
          exact ih (by omega) h fun j hj => hslots j (by omega)
      | some socket =>
          obtain ⟨hwf, htracked, -, hkept⟩ := removeAll_spec h (removals socket) socket
          -- the slots ahead hold other sockets, so they are as they were
          have hahead : ∀ j, i + 1 ≤ j →
              ((registry.removeAll (removals socket) socket).sets set)[j]? = slots[j]? := by
            intro j hj
            have hold := hslots j (by omega)
            refine (hkept set j fun hsame => ?_).trans hold
            rw [hold] at hsame
            have hhere : slots[i]? = some (some socket) := by
              rw [List.getElem?_eq_getElem hlt, hvalue]
            have heq := hdistinct i j socket hhere hsame
            omega
          obtain ⟨⟨hwf', htracked'⟩, hevents⟩ := ih (by omega) hwf hahead
          refine ⟨⟨hwf', fun user other => ?_⟩, ?_⟩
          · simp only
            rw [htracked', htracked, SlotSet.values_cons_some, List.mem_cons, ← and_assoc]
            refine and_congr_left fun _ => ?_
            -- the sockets ahead are others, so each one is disconnected once
            by_cases hsame : other = socket
            · subst hsame
              tauto
            · simp [hsame]
          · simp only [hevents]
            rfl

/-- **What `disconnectUser` does**: it disconnects each socket of the user once and no
other socket; the user has none left, and another user loses only what a disconnected
socket removed. -/
structure DisconnectsUser (registry : SocketRegistry υ σ) (userId : υ) (message : JsString)
    (removals : σ → List υ)
    (result : SocketRegistry υ σ × List (RegistryEvent σ)) : Prop where
  once : ∃ disconnected : List σ, disconnected.Nodup ∧
    (∀ socket, socket ∈ disconnected ↔ registry.Tracked userId socket) ∧
      result.2 = disconnected.flatMap (eventsOf message)
  cleared : result.1.sockets userId = none
  others : ∀ user, user ≠ userId → ∀ socket, result.1.Tracked user socket ↔
    ¬ (registry.Tracked userId socket ∧ user ∈ removals socket) ∧ registry.Tracked user socket

/-- `disconnectUser` in a well-formed registry. -/
theorem disconnectUser_spec {registry : SocketRegistry υ σ} (h : registry.Wf) (userId : υ)
    (message : JsString) (removals : σ → List υ) :
    (registry.disconnectUser userId message removals).1.Wf ∧
      DisconnectsUser registry userId message removals
        (registry.disconnectUser userId message removals) := by
  rw [disconnectUser]
  cases hset : registry.sockets userId with
  | none =>
      have hnone : ∀ socket, ¬ registry.Tracked userId socket := by
        rintro socket ⟨set, hsome, -⟩
        rw [hset] at hsome
        cases hsome
      exact ⟨h, ⟨[], List.nodup_nil, fun socket => by simp [hnone], rfl⟩, hset,
        fun user _ socket => by simp [hnone]⟩
  | some set =>
      have htracks : ∀ socket, socket ∈ SlotSet.values (registry.sets set) ↔
          registry.Tracked userId socket := by
        intro socket
        rw [SlotSet.mem_values]
        simp [Tracked, hset]
      obtain ⟨⟨hwf, htracked⟩, hevents⟩ := disconnectSlots_spec message removals
        set (h.separate.distinct set) (Nat.zero_add _) h fun j _ => rfl
      -- what a disconnection removed is gone already; the rest of the user goes now
      obtain ⟨hdeleted, hkept⟩ := hwf.separate.deleteUser userId
      refine ⟨⟨hdeleted, fun u other hu => hwf.noneEmpty u other (hkept u other hu).2⟩,
        ⟨_, (h.separate.distinct set).nodup, htracks, hevents⟩,
        by simp [deleteUser], fun user hne socket => ?_⟩
      rw [tracked_deleteUser, htracked, List.drop_zero, htracks]
      exact and_iff_right hne

/-! ## Runs -/

/-- The registry tracks exactly the live sockets. -/
theorem after_spec (calls : List (Call υ σ)) :
    ((empty : SocketRegistry υ σ).after calls).Wf ∧
      ∀ user socket, ((empty : SocketRegistry υ σ).after calls).Tracked user socket ↔
        Live calls user socket := by
  induction calls using List.reverseRecOn with
  | nil =>
      refine ⟨wf_empty, fun user socket => iff_of_false ?_ id⟩
      rintro ⟨set, hset, -⟩
      cases hset
  | append_singleton calls last ih =>
      obtain ⟨hwf, hlive⟩ := ih
      rw [after, List.foldl_append, Live, List.foldl_append]
      show (((empty : SocketRegistry υ σ).after calls).call last).Wf ∧
        ∀ user socket, (((empty : SocketRegistry υ σ).after calls).call last).Tracked user socket ↔
          LiveAfter (Live calls) last user socket
      generalize (empty : SocketRegistry υ σ).after calls = registry at hwf hlive ⊢
      cases last with
      | add userId socket =>
          obtain ⟨hwf', htracked⟩ := add_spec hwf userId socket
          refine ⟨hwf', fun user other => ?_⟩
          rw [call, htracked, hlive]
          rfl
      | remove userId socket =>
          obtain ⟨hwf', htracked, -⟩ := remove_spec hwf userId socket
          refine ⟨hwf', fun user other => ?_⟩
          rw [call, htracked, hlive]
          rfl
      | disconnectUser userId message removals =>
          obtain ⟨hwf', hspec⟩ := disconnectUser_spec hwf userId message removals
          refine ⟨hwf', fun user other => ?_⟩
          rw [call, LiveAfter, ← hlive, ← hlive]
          by_cases hsame : user = userId
          · subst hsame
            refine iff_of_false ?_ fun hother => hother.1 rfl
            rintro ⟨set, hset, -⟩
            rw [hspec.cleared] at hset
            cases hset
          · rw [hspec.others user hsame]
            exact (and_iff_right hsame).symm

/-- **`SocketRegistry` tracks exactly the live sockets**: after any calls a socket is
tracked for a user exactly if it is live, no user is kept with an empty set, and
`disconnectUser` disconnects each tracked socket of its user once and no other one,
whatever the disconnections remove on the way. -/
theorem socketRegistry_exact (calls : List (Call υ σ)) :
    (∀ user socket, ((empty : SocketRegistry υ σ).after calls).Tracked user socket ↔
      Live calls user socket) ∧
    ((empty : SocketRegistry υ σ).after calls).NoneEmpty ∧
    ∀ userId message removals,
      DisconnectsUser ((empty : SocketRegistry υ σ).after calls) userId message removals
        (((empty : SocketRegistry υ σ).after calls).disconnectUser userId message removals) := by
  obtain ⟨hwf, hlive⟩ := after_spec calls
  exact ⟨hlive, hwf.noneEmpty, fun userId message removals =>
    (disconnectUser_spec hwf userId message removals).2⟩

end SocketRegistry

end Server
end InfinityLabs
