import InfinityLabs.Wd.Lasting

/-!
# A stopped watchdog

`WDStop` sends `SIGUSR2` to the watchdog and sets the flag of the client to 1.  The watchdog
sets its flag to 2 and answers with `SIGUSR2`, on which the client sets its flag to 2.  Two
things can go wrong.  The flag of the client becomes 1 again when the answer is handled before
the main thread has set it to 1.  And a check tests the flag for 2 only, so before that it
revives a peer that has missed too many heartbeats, even if the peer still runs.
-/

namespace InfinityLabs
namespace Wd

open Lib Ds Sched

/-! ## The condition -/

/-- The counter check that comes next knows of the stop, or finds its peer in time, or finds a
peer that is gone and has not answered. -/
def Justified (p : WdProcess) (peerAlive answerPending : Bool) : Prop :=
  p.pc = some .testStopped → p.ctx.stopFlag = 2 ∨ p.ctx.counter ≤ p.ctx.tolerance ∨
    peerAlive = false ∧ answerPending = false

instance (p : WdProcess) (peerAlive answerPending : Bool) :
    Decidable (Justified p peerAlive answerPending) :=
  inferInstanceAs (Decidable (p.pc = some .testStopped → p.ctx.stopFlag = 2 ∨
    p.ctx.counter ≤ p.ctx.tolerance ∨ peerAlive = false ∧ answerPending = false))

instance (p : WdProcess) : Decidable (Settled p) :=
  decidable_of_iff (p.pc ≠ some .clearLate ∧ p.pc ≠ some .revive ∧
      (p.pc = some .readCounter → p.ctx.counter ≤ p.ctx.tolerance))
    ⟨fun h => ⟨h.1, h.2.1, h.2.2⟩, fun h => ⟨h.late, h.revive, h.read⟩⟩

/-- `WDStop` is called while no check is about to revive, sets the flag to 1 before the answer
is handled, and from the call on the checks are justified.  A revival before the call has the
memory for its heartbeat task. -/
def Orderly (s : WdSystem) : SysAction → Prop
  | .client (.statement env) => HeartbeatAdded s.client (.statement env) ∧
      (s.begun = true → Justified s.client s.wdAlive s.clientUsr2)
  | .wd (.statement _) => s.begun = true → Justified s.wd s.clientAlive s.wdUsr2
  | .begin => Settled s.client ∧ Settled s.wd
  | .request => s.client.ctx.stopFlag ≠ 2
  | _ => True

instance (s : WdSystem) : (a : SysAction) → Decidable (Orderly s a)
  | .client (.statement env) => inferInstanceAs (Decidable (HeartbeatAdded s.client
      (.statement env) ∧ (s.begun = true → Justified s.client s.wdAlive s.clientUsr2)))
  | .wd (.statement _) =>
      inferInstanceAs (Decidable (s.begun = true → Justified s.wd s.clientAlive s.wdUsr2))
  | .begin => inferInstanceAs (Decidable (Settled s.client ∧ Settled s.wd))
  | .request => inferInstanceAs (Decidable (s.client.ctx.stopFlag ≠ 2))
  | .client (.loop _) | .client .execute | .client .sigUsr1 | .client .sigUsr2
  | .client .answer | .client .requestStop | .wd (.loop _) | .wd .execute | .wd .sigUsr1
  | .wd .sigUsr2 | .wd .answer | .wd .requestStop | .clientRevives .. | .wdRevives | .wdDies
  | .wdExits | .signal | .join | .exit => instDecidableTrue

/-! ## The invariant -/

/-- What holds in every state of an orderly run.  The flag of the client is 2, or its answer is
pending, only if the watchdog has its flag at 2, and then one of the two is the case once the
handler of the watchdog has returned. -/
structure Inv (s : WdSystem) : Prop where
  client : Sound s.client
  wd : Sound s.wd
  clientSide : s.client.ctx.isWd = false
  wdSide : s.wd.ctx.isWd = true
  clientQuiet : s.client.answering = false
  clientPid : 0 < s.wd.ctx.peerPid
  wdPid : s.client.ctx.peerPid = s.wdPid ∧ 0 < s.wdPid
  wdFlag : s.wd.ctx.stopFlag = 0 ∨ s.wd.ctx.stopFlag = 2
  wdReads : s.wd.pc ≠ some .addHeartbeat ∧ s.wd.pc ≠ some .addCheck
  wdAnswers : s.wd.answering = true → s.wd.ctx.stopFlag = 2
  before : s.main = .running → s.client.ctx.stopFlag = 0 ∧ s.wd.ctx.stopFlag = 0 ∧
    s.wd.answering = false ∧ s.clientUsr2 = false ∧ s.wdUsr2 = false
  clientLasts : s.main ≠ .running ∨ s.wdAlive = true → s.client.ctx.stopFlag = 2 ∨ Lasting s.client
  wdLasts : s.main ≠ .running ∨ s.clientAlive = true ∧ s.wdAlive = true →
    s.wd.ctx.stopFlag = 2 ∨ Lasting s.wd
  answered : s.wd.ctx.stopFlag = 2 → s.wd.answering = false →
    s.client.ctx.stopFlag = 2 ∨ s.clientUsr2 = true
  told : s.client.ctx.stopFlag = 2 ∨ s.clientUsr2 = true → s.wd.ctx.stopFlag = 2
  wdGone : s.main ≠ .running → s.wdAlive = false →
    s.wd.ctx.stopFlag = 2 ∧ s.wd.answering = false
  joined : s.main = .joined ∨ s.main = .exited → s.client.ctx.stopFlag = 2
  clientGone : s.main ≠ .running → s.clientAlive = false → s.main = .exited
  settled : s.main ≠ .running → Settled s.client ∧ Settled s.wd
  revived : s.revived = false

/-! ## Signals -/

/-- A signal to the watchdog is a change of what is pending there, or its end before the call
of `WDStop`. -/
theorem Inv.killWd {s : WdSystem} (h : Inv s) (pid : Int) {signal : Signal}
    (husr2 : signal = .SIGUSR2 → s.main ≠ .running)
    (hkill : signal = .SIGKILL → s.main = .running) : Inv (s.killWd pid signal) := by
  unfold WdSystem.killWd
  split
  · cases signal with
    | SIGUSR1 => exact { h with }
    | SIGUSR2 => exact { h with before := fun hmain => absurd hmain (husr2 rfl) }
    | SIGKILL =>
        have hmain := hkill rfl
        exact { h with
          clientLasts := fun hcase => absurd hcase (by simp [hmain])
          wdLasts := fun hcase => absurd hcase (by simp [hmain])
          wdGone := fun hbegun => absurd hmain hbegun }
  · exact h

/-- A signal to the client is a change of what is pending there, or its end before the call of
`WDStop`. -/
theorem Inv.killClient {s : WdSystem} (h : Inv s) {signal : Signal}
    (husr2 : signal = .SIGUSR2 → s.wd.ctx.stopFlag = 2)
    (hkill : signal = .SIGKILL → s.main = .running) : Inv (s.killClient signal) := by
  unfold WdSystem.killClient
  split
  · cases signal with
    | SIGUSR1 => exact { h with }
    | SIGUSR2 =>
        refine { h with
          before := fun hmain => ?_
          answered := fun _ _ => Or.inr rfl
          told := fun _ => husr2 rfl }
        have hzero := (h.before hmain).2.1
        rw [husr2 rfl] at hzero
        cases hzero
    | SIGKILL =>
        have hmain := hkill rfl
        exact { h with
          wdLasts := fun hcase => absurd hcase (by simp [hmain])
          clientGone := fun hbegun => absurd hmain hbegun }
  · exact h

/-! ## The client -/

/-- A step of the client, after the signal that it sends.  It keeps the flag, or handles the
answer. -/
theorem Inv.withClient {s : WdSystem} (h : Inv s) {c : WdProcess} {a : WdAction}
    {usr1 usr2 : Bool} (hstep : s.client.step a = some c) (hrequest : a ≠ .requestStop)
    (hfork : ∀ env, a = .statement env → s.client.pc = some .revive → env.fork = none)
    (hflag : c.ctx.stopFlag = s.client.ctx.stopFlag ∧ usr2 = s.clientUsr2 ∨
      c.ctx.stopFlag = 2 ∧ s.clientUsr2 = true)
    (hlasts : s.main ≠ .running ∨ s.wdAlive = true → c.ctx.stopFlag = 2 ∨ Lasting c)
    (hsettled : s.main ≠ .running → Settled c) :
    Inv { s with client := c, clientUsr1 := usr1, clientUsr2 := usr2 } := by
  have hpid := peerPid_step hstep fun env ha hpc => Or.inl (hfork env ha hpc)
  refine { h with
    client := h.client.step hstep fun ha => absurd ha hrequest
    clientSide := (WdProcess.step_isWd hstep).trans h.clientSide
    clientQuiet := ?_
    wdPid := ⟨hpid.trans h.wdPid.1, h.wdPid.2⟩
    before := fun hmain => ?_
    clientLasts := hlasts
    answered := fun htwo hquiet => ?_
    told := fun hcase => ?_
    joined := fun hmain => ?_
    settled := fun hbegun => ⟨hsettled hbegun, (h.settled hbegun).2⟩ }
  · dsimp only
    rw [answering_step hstep]
    cases a with
    | sigUsr2 => simp [WdProcess.answeringAfter, h.clientSide]
    | answer => rfl
    | _ => exact h.clientQuiet
  · obtain ⟨hzero, hwd, hquiet, hnone, hwdNone⟩ := h.before hmain
    rcases hflag with ⟨hsame, rfl⟩ | ⟨-, hpending⟩
    · exact ⟨hsame.trans hzero, hwd, hquiet, hnone, hwdNone⟩
    · rw [hnone] at hpending
      cases hpending
  · rcases hflag with ⟨hsame, rfl⟩ | ⟨htwo', -⟩
    · exact (h.answered htwo hquiet).imp_left fun hc => hsame.trans hc
    · exact Or.inl htwo'
  · rcases hflag with ⟨hsame, rfl⟩ | ⟨-, hpending⟩
    · exact h.told (hcase.imp_left fun hc => hsame.symm.trans hc)
    · exact h.told (Or.inr hpending)
  · rcases hflag with ⟨hsame, -⟩ | ⟨htwo, -⟩
    · exact hsame.trans (h.joined hmain)
    · exact htwo

/-- After the call of `WDStop` a justified check of the client finds the stop or its peer. -/
theorem Inv.client_justified {s : WdSystem} (h : Inv s) (hbegun : s.main ≠ .running)
    (hjustified : Justified s.client s.wdAlive s.clientUsr2)
    (hpc : s.client.pc = some .testStopped) :
    s.client.ctx.stopFlag = 2 ∨ s.client.ctx.counter ≤ s.client.ctx.tolerance := by
  rcases hjustified hpc with htwo | htime | ⟨hgone, hnone⟩
  · exact Or.inl htwo
  · exact Or.inr htime
  · -- the watchdog has ended after its answer
    obtain ⟨htwo, hquiet⟩ := h.wdGone hbegun hgone
    refine Or.inl ((h.answered htwo hquiet).resolve_right ?_)
    simp [hnone]

/-! ## The watchdog -/

/-- A step of the watchdog, after the signal that it sends.  It keeps the flag, or handles the
request; at the end of its handler the client has been told. -/
theorem Inv.withWd {s : WdSystem} (h : Inv s) {w : WdProcess} {a : WdAction} {usr1 usr2 : Bool}
    (halive : s.wdAlive = true) (hstep : s.wd.step a = some w)
    (hpending : a = .sigUsr2 → s.wdUsr2 = true) (husr2 : usr2 = true → s.wdUsr2 = true)
    (hanswer : a = .answer → s.client.ctx.stopFlag = 2 ∨ s.clientUsr2 = true)
    (hlasts : s.main ≠ .running ∨ s.clientAlive = true → w.ctx.stopFlag = 2 ∨ Lasting w)
    (hsettled : s.main ≠ .running → Settled w) :
    Inv { s with wd := w, wdUsr1 := usr1, wdUsr2 := usr2 } := by
  have hrequest : a ≠ .requestStop := by
    rintro rfl
    rw [WdProcess.step, if_pos h.wdSide] at hstep
    cases hstep
  have hside := (WdProcess.step_isWd hstep).trans h.wdSide
  have hpid := peerPid_step hstep fun env ha hpc => Or.inr h.wdSide
  -- the flag is 2 from the handler on
  have hflag : w.ctx.stopFlag = s.wd.ctx.stopFlag ∧ a ≠ .sigUsr2 ∨
      w.ctx.stopFlag = 2 ∧ a = .sigUsr2 := by
    by_cases ha : a = .sigUsr2
    · rw [stopFlag_step hstep, ha]
      exact Or.inr ⟨rfl, rfl⟩
    · exact Or.inl ⟨stopFlag_eq hstep ha hrequest, ha⟩
  refine { h with
    wd := h.wd.step hstep fun ha => absurd ha hrequest
    wdSide := hside
    clientPid := hpid ▸ h.clientPid
    wdFlag := ?_
    wdReads := not_readding h.wdSide h.wdReads hstep
    wdAnswers := fun hanswering => ?_
    before := fun hmain => ?_
    wdLasts := fun hcase => hlasts (hcase.imp_right And.left)
    answered := fun htwo hquiet => ?_
    told := fun hcase => ?_
    wdGone := fun _ hgone => ?_
    settled := fun hbegun => ⟨(h.settled hbegun).1, hsettled hbegun⟩ }
  · rcases hflag with ⟨hsame, -⟩ | ⟨htwo, -⟩
    · exact h.wdFlag.imp hsame.trans hsame.trans
    · exact Or.inr htwo
  · rcases hflag with ⟨hsame, hnot⟩ | ⟨htwo, -⟩
    · refine hsame.trans (h.wdAnswers ?_)
      dsimp only at hanswering
      rw [answering_step hstep] at hanswering
      cases a with
      | sigUsr2 => exact absurd rfl hnot
      | answer => cases hanswering
      | _ => exact hanswering
    · exact htwo
  · obtain ⟨hzero, hwd, hquiet, hnone, hwdNone⟩ := h.before hmain
    rcases hflag with ⟨hsame, hnot⟩ | ⟨-, ha⟩
    · refine ⟨hzero, hsame.trans hwd, ?_, hnone, ?_⟩
      · dsimp only
        rw [answering_step hstep]
        cases a with
        | sigUsr2 => exact absurd rfl hnot
        | answer => rfl
        | _ => exact hquiet
      · by_contra hpend
        rw [husr2 (by simpa using hpend)] at hwdNone
        cases hwdNone
    · rw [hpending ha] at hwdNone
      cases hwdNone
  · rcases hflag with ⟨hsame, hnot⟩ | ⟨-, rfl⟩
    · by_cases ha : a = .answer
      · exact hanswer ha
      · apply h.answered (hsame.symm.trans htwo)
        dsimp only at hquiet
        rw [answering_step hstep] at hquiet
        cases a with
        | sigUsr2 => exact absurd rfl hnot
        | answer => exact absurd rfl ha
        | _ => exact hquiet
    · -- the handler is about to answer
      dsimp only at hquiet
      rw [answering_step hstep] at hquiet
      simp [WdProcess.answeringAfter, h.wdSide, h.clientPid] at hquiet
  · rcases hflag with ⟨hsame, -⟩ | ⟨htwo, -⟩
    · exact hsame.trans (h.told hcase)
    · exact htwo
  · dsimp only at hgone
    rw [halive] at hgone
    cases hgone

/-- After the call of `WDStop` a justified check of the watchdog finds the stop or its peer. -/
theorem Inv.wd_justified {s : WdSystem} (h : Inv s) (hbegun : s.main ≠ .running)
    (hjustified : Justified s.wd s.clientAlive s.wdUsr2) (hpc : s.wd.pc = some .testStopped) :
    s.wd.ctx.stopFlag = 2 ∨ s.wd.ctx.counter ≤ s.wd.ctx.tolerance := by
  rcases hjustified hpc with htwo | htime | ⟨hgone, -⟩
  · exact Or.inl htwo
  · exact Or.inr htime
  · -- the client has ended after its scheduler, and that after the answer
    exact Or.inl (h.told (Or.inl (h.joined (Or.inr (h.clientGone hbegun hgone)))))

/-! ## The steps -/

/-- What a signal to the watchdog leaves. -/
theorem killWd_frame (s : WdSystem) (pid : Int) (signal : Signal) :
    (s.killWd pid signal).client = s.client ∧ (s.killWd pid signal).main = s.main ∧
      (s.killWd pid signal).clientUsr2 = s.clientUsr2 ∧
        ((s.killWd pid signal).wdAlive = true → s.wdAlive = true) := by
  unfold WdSystem.killWd
  split
  · rename_i halive
    cases signal <;> exact ⟨rfl, rfl, rfl, fun _ => halive.1⟩
  · exact ⟨rfl, rfl, rfl, id⟩

/-- What a signal to the client leaves. -/
theorem killClient_frame (s : WdSystem) (signal : Signal) :
    (s.killClient signal).wd = s.wd ∧ (s.killClient signal).main = s.main ∧
      (s.killClient signal).wdUsr2 = s.wdUsr2 ∧ (s.killClient signal).wdAlive = s.wdAlive ∧
        ((s.killClient signal).clientAlive = true → s.clientAlive = true) := by
  unfold WdSystem.killClient
  split
  · rename_i halive
    cases signal <;> exact ⟨rfl, rfl, rfl, rfl, fun _ => halive⟩
  · exact ⟨rfl, rfl, rfl, rfl, id⟩

/-- The signal of a step of the client and its own change do not meet. -/
theorem sentByClient_with (s : WdSystem) (p c : WdProcess) (a : WdAction) (r usr1 usr2 : Bool) :
    ({ s with client := c, revived := r, clientUsr1 := usr1, clientUsr2 := usr2 } :
        WdSystem).sentByClient p a =
      { s.sentByClient p a with
        client := c, revived := r, clientUsr1 := usr1, clientUsr2 := usr2 } := by
  unfold WdSystem.sentByClient
  cases p.sends a with
  | none => rfl
  | some signal =>
      dsimp only
      unfold WdSystem.killWd
      split <;> cases signal <;> rfl

/-- The signal of a step of the watchdog and its own change do not meet. -/
theorem sentByWd_with (s : WdSystem) (p w : WdProcess) (a : WdAction) (r usr1 usr2 : Bool) :
    ({ s with wd := w, revived := r, wdUsr1 := usr1, wdUsr2 := usr2 } : WdSystem).sentByWd p a =
      { s.sentByWd p a with wd := w, revived := r, wdUsr1 := usr1, wdUsr2 := usr2 } := by
  unfold WdSystem.sentByWd
  cases p.sends a with
  | none => rfl
  | some signal =>
      dsimp only
      unfold WdSystem.killClient
      split <;> cases signal <;> rfl

/-- A process sends its signal, the last blow before a revival, or an answer. -/
theorem sends_cases {p : WdProcess} (hsound : Sound p) {a : WdAction} {signal : Signal}
    (h : p.sends a = some signal) :
    signal = .SIGUSR1 ∨ signal = .SIGUSR2 ∧ (p.ctx.stopFlag ≠ 0 ∨ a = .answer) ∨
      signal = .SIGKILL ∧ p.pc = some .revive := by
  cases a with
  | statement env =>
      unfold WdProcess.sends at h
      dsimp only at h
      split at h
      · rename_i sent hpc
        obtain rfl := Option.some.inj h
        exact (hsound.signals _ hpc).imp_right fun husr2 => Or.inl ⟨husr2.1, Or.inl husr2.2⟩
      · rename_i hpc
        split at h
        · obtain rfl := Option.some.inj h
          exact Or.inr (Or.inr ⟨rfl, hpc⟩)
        · cases h
      · cases h
  | answer =>
      obtain rfl := Option.some.inj h
      exact Or.inr (Or.inl ⟨rfl, Or.inr rfl⟩)
  | _ => cases h

/-- Before the call of `WDStop` the machine says so. -/
theorem begun_iff {s : WdSystem} : s.begun = true ↔ s.main ≠ .running := by
  simp [WdSystem.begun]

/-- No revival is executed after the call of `WDStop`. -/
theorem Inv.not_revived {s : WdSystem} (h : Inv s) {p : WdProcess} (a : WdAction)
    (hsettled : s.main ≠ .running → Settled p) :
    (s.revived || (s.begun && p.revives a)) = false := by
  rw [h.revived, Bool.false_or]
  by_cases hbegun : s.main = .running
  · simp [WdSystem.begun, hbegun]
  · rw [(hsettled hbegun).revives_eq_false, Bool.and_false]

/-- What the client sends keeps the invariant. -/
theorem Inv.sentByClient {s : WdSystem} (h : Inv s) {c : WdProcess} {a : WdAction}
    (hstep : s.client.step a = some c) : Inv (s.sentByClient s.client a) := by
  unfold WdSystem.sentByClient
  cases hsends : s.client.sends a with
  | none => exact h
  | some signal =>
      apply h.killWd
      · rintro rfl hmain
        rcases sends_cases h.client hsends with hsig | ⟨-, hflag | rfl⟩ | ⟨hsig, -⟩
        · cases hsig
        · exact hflag (h.before hmain).1
        · rw [WdProcess.step, h.clientQuiet] at hstep
          cases hstep
        · cases hsig
      · rintro rfl
        by_contra hbegun
        rcases sends_cases h.client hsends with hsig | ⟨hsig, -⟩ | ⟨-, hpc⟩
        · cases hsig
        · cases hsig
        · exact (h.settled hbegun).1.revive hpc

/-- What the client sends leaves the client, and does not wake the watchdog. -/
theorem sentByClient_frame (s : WdSystem) (a : WdAction) :
    (s.sentByClient s.client a).client = s.client ∧ (s.sentByClient s.client a).main = s.main ∧
      (s.sentByClient s.client a).clientUsr2 = s.clientUsr2 ∧
        ((s.sentByClient s.client a).wdAlive = true → s.wdAlive = true) := by
  unfold WdSystem.sentByClient
  cases s.client.sends a with
  | none => exact ⟨rfl, rfl, rfl, id⟩
  | some signal => exact killWd_frame s _ signal

/-- A handler of the client takes its own signal away. -/
theorem handledByClient_eq (s : WdSystem) (a : WdAction) :
    ∃ usr1 usr2, s.handledByClient a = { s with clientUsr1 := usr1, clientUsr2 := usr2 } ∧
      (a ≠ .sigUsr2 → usr2 = s.clientUsr2) := by
  cases a with
  | sigUsr1 => exact ⟨false, s.clientUsr2, rfl, fun _ => rfl⟩
  | sigUsr2 => exact ⟨s.clientUsr1, false, rfl, fun ha => absurd rfl ha⟩
  | _ => exact ⟨s.clientUsr1, s.clientUsr2, rfl, fun _ => rfl⟩

/-- The last blow of the client reaches its watchdog. -/
theorem Inv.wdAlive_sentByClient {s : WdSystem} (h : Inv s) {env : WdEnv}
    (hpc : s.client.pc = some .revive) :
    (s.sentByClient s.client (.statement env)).wdAlive = false := by
  have hsends : s.client.sends (.statement env) = some .SIGKILL := by
    simp [WdProcess.sends, hpc, h.wdPid]
  rw [WdSystem.sentByClient, hsends]
  dsimp only
  rw [WdSystem.killWd, h.wdPid.1]
  by_cases halive : s.wdAlive = true
  · rw [if_pos ⟨halive, rfl⟩]
  · rw [if_neg fun hboth => halive hboth.1]
    simpa using halive

/-- A step of the client keeps the invariant. -/
theorem Inv.clientStep {s s' : WdSystem} (h : Inv s) {a : WdAction}
    (hguard : Orderly s (.client a)) (hstep : s.step (.client a) = some s') : Inv s' := by
  rw [WdSystem.step] at hstep
  split at hstep
  · rename_i hmay
    obtain ⟨c, hc, rfl⟩ := Option.map_eq_some_iff.mp hstep
    have hsent := h.sentByClient hc
    obtain ⟨hclient, hmain, husr2, halive⟩ := sentByClient_frame s a
    have hrevived := h.not_revived a fun hbegun => (h.settled hbegun).1
    have hadded : HeartbeatAdded s.client a := by
      cases a with
      | statement env => exact hguard.1
      | _ => trivial
    have hrequest : a ≠ .requestStop := by
      rintro rfl
      cases hmay.2
    have hfork : ∀ env, a = .statement env → s.client.pc = some .revive → env.fork = none := by
      rintro env rfl -
      simpa [WdSystem.clientMay] using hmay.2
    obtain ⟨usr1, usr2, hhandled, hkeep⟩ := handledByClient_eq { s with
      client := c
      revived := s.revived || (s.begun && s.client.revives a) } a
    have hfinal : (({ s with
          client := c
          revived := s.revived || (s.begun && s.client.revives a) } : WdSystem).handledByClient
            a).sentByClient s.client a =
        { s.sentByClient s.client a with
          client := c
          clientUsr1 := usr1
          clientUsr2 := usr2 } := by
      rw [hhandled]
      refine (sentByClient_with s s.client c a _ usr1 usr2).trans ?_
      rw [hrevived, ← hsent.revived]
    rw [hfinal]
    apply hsent.withClient (a := a) (by rw [hclient]; exact hc) hrequest (by rwa [hclient])
    · rw [hclient, husr2]
      by_cases ha : a = .sigUsr2
      · subst ha
        exact Or.inr ⟨stopFlag_step hc, hmay.2⟩
      · exact Or.inl ⟨stopFlag_eq hc ha hrequest, hkeep ha⟩
    · intro hcase
      rw [hmain] at hcase
      refine Lasting.step (h.clientLasts (hcase.imp_right halive)) h.client
        (fun ha => absurd ha hrequest) ?_ hadded hc
      rintro env rfl hpc
      rcases hcase with hbegun | hkilled
      · exact absurd hpc (h.settled hbegun).1.revive
      · rw [h.wdAlive_sentByClient hpc] at hkilled
        cases hkilled
    · intro hbegun
      rw [hmain] at hbegun
      refine (h.settled hbegun).1.step ?_ hc
      rintro env rfl hpc
      exact h.client_justified hbegun (hguard.2 (begun_iff.mpr hbegun)) hpc
  · cases hstep

/-- What the watchdog sends leaves the watchdog, and does not wake the client. -/
theorem sentByWd_frame (s : WdSystem) (a : WdAction) :
    (s.sentByWd s.wd a).wd = s.wd ∧ (s.sentByWd s.wd a).main = s.main ∧
      (s.sentByWd s.wd a).wdUsr2 = s.wdUsr2 ∧ (s.sentByWd s.wd a).wdAlive = s.wdAlive ∧
        ((s.sentByWd s.wd a).clientAlive = true → s.clientAlive = true) := by
  unfold WdSystem.sentByWd
  cases s.wd.sends a with
  | none => exact ⟨rfl, rfl, rfl, rfl, id⟩
  | some signal => exact killClient_frame s signal

/-- A handler of the watchdog takes its own signal away. -/
theorem handledByWd_eq (s : WdSystem) (a : WdAction) :
    ∃ usr1 usr2, s.handledByWd a = { s with wdUsr1 := usr1, wdUsr2 := usr2 } ∧
      (usr2 = true → s.wdUsr2 = true) := by
  cases a with
  | sigUsr1 => exact ⟨false, s.wdUsr2, rfl, id⟩
  | sigUsr2 => exact ⟨s.wdUsr1, false, rfl, fun husr2 => by cases husr2⟩
  | _ => exact ⟨s.wdUsr1, s.wdUsr2, rfl, id⟩

/-- What the watchdog sends keeps the invariant. -/
theorem Inv.sentByWd {s : WdSystem} (h : Inv s) {w : WdProcess} {a : WdAction}
    (hstep : s.wd.step a = some w) : Inv (s.sentByWd s.wd a) := by
  unfold WdSystem.sentByWd
  cases hsends : s.wd.sends a with
  | none => exact h
  | some signal =>
      apply h.killClient
      · rintro rfl
        rcases sends_cases h.wd hsends with hsig | ⟨-, hflag | rfl⟩ | ⟨hsig, -⟩
        · cases hsig
        · exact h.wdFlag.resolve_left hflag
        · cases WdProcess.step_effect hstep with
          | answer hanswering => exact h.wdAnswers hanswering
        · cases hsig
      · rintro rfl
        by_contra hbegun
        rcases sends_cases h.wd hsends with hsig | ⟨hsig, -⟩ | ⟨-, hpc⟩
        · cases hsig
        · cases hsig
        · exact (h.settled hbegun).2.revive hpc

/-- The last blow of the watchdog reaches the client. -/
theorem Inv.clientAlive_sentByWd {s : WdSystem} (h : Inv s) {env : WdEnv}
    (hpc : s.wd.pc = some .revive) : (s.sentByWd s.wd (.statement env)).clientAlive = false := by
  have hsends : s.wd.sends (.statement env) = some .SIGKILL := by
    simp [WdProcess.sends, hpc, h.clientPid]
  rw [WdSystem.sentByWd, hsends]
  dsimp only
  unfold WdSystem.killClient
  split
  · rfl
  · rename_i halive
    simpa using halive

/-- The answer of the watchdog reaches the client, or the client has ended. -/
theorem Inv.answer_sentByWd {s : WdSystem} (h : Inv s) (hanswering : s.wd.answering = true) :
    (s.sentByWd s.wd .answer).client.ctx.stopFlag = 2 ∨
      (s.sentByWd s.wd .answer).clientUsr2 = true := by
  have hbegun : s.main ≠ .running := by
    intro hmain
    rw [(h.before hmain).2.2.1] at hanswering
    cases hanswering
  unfold WdSystem.sentByWd
  dsimp only [WdProcess.sends]
  unfold WdSystem.killClient
  split
  · exact Or.inr rfl
  · rename_i halive
    exact Or.inl (h.joined (Or.inr (h.clientGone hbegun (by simpa using halive))))

/-- A step of the watchdog keeps the invariant. -/
theorem Inv.wdStep {s s' : WdSystem} (h : Inv s) {a : WdAction} (hguard : Orderly s (.wd a))
    (hstep : s.step (.wd a) = some s') : Inv s' := by
  rw [WdSystem.step] at hstep
  split at hstep
  · rename_i hmay
    obtain ⟨w, hw, rfl⟩ := Option.map_eq_some_iff.mp hstep
    have hsent := h.sentByWd hw
    obtain ⟨hwd, hmain, husr2, halive, hclient⟩ := sentByWd_frame s a
    have hrevived := h.not_revived a fun hbegun => (h.settled hbegun).2
    have hrequest : a ≠ .requestStop := by
      rintro rfl
      rw [WdProcess.step, if_pos h.wdSide] at hw
      cases hw
    have hadded : HeartbeatAdded s.wd a := by
      cases a with
      | statement env => exact fun hpc => absurd hpc h.wdReads.1
      | _ => trivial
    obtain ⟨usr1, usr2, hhandled, hkeep⟩ := handledByWd_eq { s with
      wd := w
      revived := s.revived || (s.begun && s.wd.revives a) } a
    have hfinal : (({ s with
          wd := w
          revived := s.revived || (s.begun && s.wd.revives a) } : WdSystem).handledByWd
            a).sentByWd s.wd a =
        { s.sentByWd s.wd a with wd := w, wdUsr1 := usr1, wdUsr2 := usr2 } := by
      rw [hhandled]
      refine (sentByWd_with s s.wd w a _ usr1 usr2).trans ?_
      rw [hrevived, ← hsent.revived]
    rw [hfinal]
    apply hsent.withWd (a := a) (halive.trans hmay.1) (by rw [hwd]; exact hw)
    · rintro rfl
      rw [husr2]
      exact hmay.2
    · rw [husr2]
      exact hkeep
    · rintro rfl
      cases WdProcess.step_effect hw with
      | answer hanswering => exact h.answer_sentByWd hanswering
    · intro hcase
      rw [hmain] at hcase
      refine Lasting.step (h.wdLasts (hcase.imp_right fun hc => ⟨hclient hc, hmay.1⟩)) h.wd
        (fun ha => absurd ha hrequest) ?_ hadded hw
      rintro env rfl hpc
      rcases hcase with hbegun | hkilled
      · exact absurd hpc (h.settled hbegun).2.revive
      · rw [h.clientAlive_sentByWd hpc] at hkilled
        cases hkilled
    · intro hbegun
      rw [hmain] at hbegun
      refine (h.settled hbegun).2.step ?_ hw
      rintro env rfl hpc
      exact h.wd_justified hbegun (hguard (begun_iff.mpr hbegun)) hpc
  · cases hstep

/-! ## The start -/

/-- A process that has started is sound, and its loop goes on. -/
theorem sound_wdStart {env₁ env₂ : TaskEnv} {counter : Nat} {clock : Int} {isWd : Bool}
    {peerPid : Int} {intervalSec tolerance : Nat} {p : WdProcess} (hpos : 0 < intervalSec)
    (h : wdStart env₁ env₂ counter clock isWd peerPid intervalSec tolerance = some p) :
    Sound p ∧ Lasting p ∧ p.pc = none ∧ p.answering = false ∧
      p.ctx = ⟨peerPid, intervalSec, tolerance, 0, 0, isWd⟩ := by
  obtain ⟨s₁, uid₁, s₂, uid₂, s, hbeat, huid₁, hcheck, huid₂, hrun, rfl⟩ := wdStart_some h
  have hwf₀ : (schedCreate : Scheduler WdPtr).Wf := wf_heapCreate
  obtain ⟨hwf₁, -, hstop₁, -, -⟩ := addTask_queue hwf₀ hbeat
  obtain ⟨hwf₂, -, hstop₂, -, hqueue⟩ := addTask_queue hwf₁ hcheck
  have hne := hqueue (Or.inr (task_ne_none_of_uid hcheck huid₂))
  obtain ⟨hwf, heffect⟩ := SchedState.step_effect hwf₂ hrun
  cases heffect with
  | run hphase =>
      exact ⟨⟨hwf, rfl, hpos, by simp, by simp, by simp, by simp⟩, hne, rfl, rfl, rfl⟩

/-- Before the call of `WDStop` no flag is set and no process answers, so that the invariant
asks no more than two sound processes that last. -/
theorem inv_of_running {s : WdSystem} (hmain : s.main = .running) (hclient : Sound s.client)
    (hwd : Sound s.wd) (hlasts : Lasting s.client) (hwdLasts : Lasting s.wd)
    (hsides : s.client.ctx.isWd = false ∧ s.wd.ctx.isWd = true)
    (hquiet : s.client.answering = false) (hpids : 0 < s.wd.ctx.peerPid ∧
      s.client.ctx.peerPid = s.wdPid ∧ 0 < s.wdPid) (hpc : s.wd.pc = none)
    (hbefore : s.client.ctx.stopFlag = 0 ∧ s.wd.ctx.stopFlag = 0 ∧ s.wd.answering = false ∧
      s.clientUsr2 = false ∧ s.wdUsr2 = false) (hrevived : s.revived = false) : Inv s := by
  have hbegun : ∀ {P : Prop}, s.main ≠ .running → P := fun hne => absurd hmain hne
  have ⟨hflag, hwdFlag, hanswering, hnone, _⟩ := hbefore
  constructor
  case client => exact hclient
  case wd => exact hwd
  case clientSide => exact hsides.1
  case wdSide => exact hsides.2
  case clientQuiet => exact hquiet
  case clientPid => exact hpids.1
  case wdPid => exact hpids.2
  case wdFlag => exact Or.inl hwdFlag
  case wdReads => simp [hpc]
  case wdAnswers => simp [hanswering]
  case before => exact fun _ => hbefore
  case clientLasts => exact fun _ => Or.inr hlasts
  case wdLasts => exact fun _ => Or.inr hwdLasts
  case answered => simp [hwdFlag]
  case told => simp [hflag, hnone]
  case wdGone => exact hbegun
  case joined => simp [hmain]
  case clientGone => exact hbegun
  case settled => exact hbegun
  case revived => exact hrevived

/-- The invariant holds when `WDStart` has returned. -/
theorem inv_of_started {s : WdSystem} (h : Started s) : Inv s := by
  obtain ⟨env₁, env₂, env₃, env₄, counter, clock, wdClock, clientPid, wdPid, intervalSec, tolerance,
    client, wd, hclientPid, hwdPid, hinterval, -, -, -, hclient, hwd, rfl⟩ := h
  obtain ⟨hsound, hlasts, -, hquiet, hctx⟩ := sound_wdStart hinterval hclient
  obtain ⟨hwdSound, hwdLasts, hwdPc, hwdQuiet, hwdCtx⟩ := sound_wdStart hinterval hwd
  exact inv_of_running rfl hsound hwdSound hlasts hwdLasts (by simp [hctx, hwdCtx]) hquiet
    (by simp [hctx, hwdCtx, hclientPid, hwdPid]) hwdPc (by simp [hctx, hwdCtx, hwdQuiet]) rfl

/-- A revival of the watchdog before the call of `WDStop` keeps the invariant. -/
theorem Inv.clientRevives {s s' : WdSystem} (h : Inv s) {newPid : Int} {env₁ env₂ : TaskEnv}
    {clock : Int} (hstep : s.step (.clientRevives newPid env₁ env₂ clock) = some s') : Inv s' := by
  rw [WdSystem.step] at hstep
  split at hstep
  · rename_i hmay
    obtain ⟨-, hpc, hpos⟩ := hmay
    obtain ⟨c, hc, hstep⟩ := Option.bind_eq_some_iff.mp hstep
    obtain ⟨w, hw, hstep⟩ := Option.bind_eq_some_iff.mp hstep
    obtain rfl := Option.some.inj hstep
    have hmain : s.main = .running := by
      by_contra hbegun
      exact (h.settled hbegun).1.revive hpc
    obtain ⟨hzero, -, -, hnone, -⟩ := h.before hmain
    obtain ⟨hwdSound, hwdLasts, hwdPc, hwdQuiet, hwdCtx⟩ := sound_wdStart h.client.interval hw
    have hsound := h.client.step hc (by simp)
    have hflag : c.ctx.stopFlag = 0 := (stopFlag_eq hc (by simp) (by simp)).trans hzero
    have hquiet : c.answering = false := (answering_step hc).trans h.clientQuiet
    have hside : c.ctx.isWd = false := (WdProcess.step_isWd hc).trans h.clientSide
    -- the client goes on to its calls of `SchedAdd`
    have hnext : c.pc = some .addHeartbeat ∧ c.ctx.peerPid = newPid := by
      cases WdProcess.step_effect hc with
      | statement pc hfree hpc' hstatement =>
          obtain rfl : pc = .revive := Option.some.inj (hpc'.symm.trans hpc)
          simp only [WdProcess.statement, Option.some.injEq] at hstatement
          subst hstatement
          simp [reviveProcess, h.clientSide]
    have hlasts : Lasting c := by
      obtain ⟨hadFail, task, hphase⟩ := hsound.executing (by simp [hnext.1])
      unfold Lasting
      rw [hphase]
      exact Or.inr (by simp [hnext.1])
    have hbegun : s.begun = false := by simp [WdSystem.begun, hmain]
    refine inv_of_running hmain hsound hwdSound hlasts hwdLasts (by simp [hside, hwdCtx]) hquiet
      ?_ hwdPc (by simp [hflag, hwdCtx, hwdQuiet, hnone]) ?_
    · simp [hwdCtx, hnext, hpos, h.clientPid]
    · simp [h.revived, hbegun]
  · cases hstep

/-- The death and the revivals before the call of `WDStop`, and the end after it, keep the
invariant. -/
theorem Inv.wdEnds {s s' : WdSystem} (h : Inv s) {a : SysAction}
    (ha : a = .wdRevives ∨ a = .wdDies ∨ a = .wdExits) (hstep : s.step a = some s') : Inv s' := by
  rcases ha with rfl | rfl | rfl
  · rw [WdSystem.step] at hstep
    split at hstep
    · rename_i hmay
      obtain rfl := Option.some.inj hstep
      have hmain : s.main = .running := by
        by_contra hbegun
        exact (h.settled hbegun).2.revive hmay.2.1
      exact { h with
        clientLasts := fun hcase => absurd hcase (by simp [hmain])
        wdLasts := fun hcase => absurd hcase (by simp [hmain])
        wdGone := fun hbegun => absurd hmain hbegun
        clientGone := fun hbegun => absurd hmain hbegun
        revived := by simp [h.revived, WdSystem.begun, hmain] }
    · cases hstep
  · rw [WdSystem.step] at hstep
    split at hstep
    · cases hstep
    · rename_i hbegun
      obtain rfl := Option.some.inj hstep
      have hmain : s.main = .running := by simpa [WdSystem.begun] using hbegun
      exact { h with
        clientLasts := fun hcase => absurd hcase (by simp [hmain])
        wdLasts := fun hcase => absurd hcase (by simp [hmain])
        wdGone := fun hbegun => absurd hmain hbegun }
  · rw [WdSystem.step] at hstep
    split at hstep
    · rename_i hmay
      obtain rfl := Option.some.inj hstep
      refine { h with
        clientLasts := fun hcase => h.clientLasts (Or.inl (hcase.resolve_right (by simp)))
        wdLasts := fun hcase => h.wdLasts (Or.inl (hcase.resolve_right (by simp)))
        wdGone := fun hbegun _ => ⟨?_, hmay.2.2⟩ }
      refine (h.wdLasts (Or.inl hbegun)).resolve_right fun hlasts => ?_
      rw [hlasts.not_ended] at hmay
      cases hmay.2.1
    · cases hstep

/-- The call of `WDStop` finds both processes at work. -/
theorem Inv.begin {s s' : WdSystem} (h : Inv s) (hguard : Orderly s .begin)
    (hstep : s.step .begin = some s') : Inv s' := by
  rw [WdSystem.step] at hstep
  split at hstep
  · rename_i hmay
    obtain rfl := Option.some.inj hstep
    exact { h with
      before := fun hmain => by cases hmain
      clientLasts := fun _ => h.clientLasts (Or.inr hmay.2.1)
      wdLasts := fun _ => h.wdLasts (Or.inr ⟨hmay.1, hmay.2.1⟩)
      wdGone := fun _ hgone => by
        dsimp only at hgone
        rw [hmay.2.1] at hgone
        cases hgone
      joined := fun hmain => by rcases hmain with hmain | hmain <;> cases hmain
      clientGone := fun _ hgone => by
        dsimp only at hgone
        rw [hmay.1] at hgone
        cases hgone
      settled := fun _ => hguard }
  · cases hstep

/-- The main thread goes from one statement of `WDStop` to the next. -/
theorem Inv.setMain {s : WdSystem} (h : Inv s) {main : MainPc} (hbegun : s.main ≠ .running)
    (hmain : main ≠ .running) (hjoined : main = .joined ∨ main = .exited →
      s.client.ctx.stopFlag = 2) (halive : s.clientAlive = true) : Inv { s with main := main } :=
  { h with
    before := fun hrunning => absurd hrunning hmain
    clientLasts := fun _ => h.clientLasts (Or.inl hbegun)
    wdLasts := fun _ => h.wdLasts (Or.inl hbegun)
    wdGone := fun _ => h.wdGone hbegun
    joined := hjoined
    clientGone := fun _ hgone => by
      dsimp only at hgone
      rw [halive] at hgone
      cases hgone
    settled := fun _ => h.settled hbegun }

/-- The signal to the watchdog keeps the invariant. -/
theorem Inv.signal {s s' : WdSystem} (h : Inv s) (hstep : s.step .signal = some s') : Inv s' := by
  rw [WdSystem.step] at hstep
  split at hstep
  · rename_i hmay
    have hset : Inv { s with main := .signalled } :=
      h.setMain (by simp [hmay.2]) (by simp) (by simp) hmay.1
    split at hstep
    · obtain rfl := Option.some.inj hstep
      exact hset.killWd s.gWdPid (by simp) (by simp)
    · obtain rfl := Option.some.inj hstep
      exact hset
  · cases hstep

/-- `WDTasksRequestStop` before the answer keeps the invariant. -/
theorem Inv.request {s s' : WdSystem} (h : Inv s) (hguard : Orderly s .request)
    (hstep : s.step .request = some s') : Inv s' := by
  rw [WdSystem.step] at hstep
  split at hstep
  · rename_i hmay
    obtain ⟨c, hc, rfl⟩ := Option.map_eq_some_iff.mp hstep
    have hbegun : s.main ≠ .running := by simp [hmay.2]
    have hadded : HeartbeatAdded s.client .requestStop := trivial
    have hlasts := Lasting.step (h.clientLasts (Or.inl hbegun)) h.client (fun _ => hguard)
      (by simp) hadded hc
    have hset : Inv { s with main := .requested } :=
      h.setMain hbegun (by simp) (by simp) hmay.1
    have hflag : c.ctx.stopFlag = 1 := stopFlag_step hc
    have hpid : c.ctx.peerPid = s.client.ctx.peerPid := peerPid_step hc (by simp)
    exact { hset with
      client := h.client.step hc fun _ => hguard
      clientSide := (WdProcess.step_isWd hc).trans h.clientSide
      clientQuiet := (answering_step hc).trans h.clientQuiet
      wdPid := ⟨hpid.trans h.wdPid.1, h.wdPid.2⟩
      before := fun hmain => by cases hmain
      clientLasts := fun _ => hlasts
      answered := fun htwo hquiet => Or.inr ((h.answered htwo hquiet).resolve_left hguard)
      told := fun hcase => by
        rcases hcase with htwo | hpending
        · dsimp only at htwo
          rw [hflag] at htwo
          cases htwo
        · exact h.told (Or.inr hpending)
      joined := fun hmain => by rcases hmain with hmain | hmain <;> cases hmain
      settled := fun _ => ⟨(h.settled hbegun).1.step (by simp) hc, (h.settled hbegun).2⟩ }
  · cases hstep

/-- The scheduler thread has ended when it is joined, and the client ends after that. -/
theorem Inv.join {s s' : WdSystem} (h : Inv s) {a : SysAction} (ha : a = .join ∨ a = .exit)
    (hstep : s.step a = some s') : Inv s' := by
  rcases ha with rfl | rfl
  · rw [WdSystem.step] at hstep
    split at hstep
    · rename_i hmay
      obtain rfl := Option.some.inj hstep
      have hbegun : s.main ≠ .running := by simp [hmay.2.1]
      have htwo := (h.clientLasts (Or.inl hbegun)).resolve_right fun hlasts => by
        rw [hlasts.not_ended] at hmay
        cases hmay.2.2
      exact h.setMain hbegun (by simp) (fun _ => htwo) hmay.1
    · cases hstep
  · rw [WdSystem.step] at hstep
    split at hstep
    · rename_i hmay
      obtain rfl := Option.some.inj hstep
      have hbegun : s.main ≠ .running := by simp [hmay.2]
      have htwo := h.joined (Or.inl hmay.2)
      have hset : Inv { s with main := .exited } :=
        h.setMain hbegun (by simp) (fun _ => htwo) hmay.1
      exact { hset with
        wdLasts := fun _ => h.wdLasts (Or.inl hbegun)
        clientGone := fun _ _ => rfl }
    · cases hstep

/-- **A step of an orderly run keeps the invariant.** -/
theorem Inv.step {s s' : WdSystem} {a : SysAction} (h : Inv s) (hguard : Orderly s a)
    (hstep : s.step a = some s') : Inv s' := by
  cases a with
  | client a => exact h.clientStep hguard hstep
  | clientRevives newPid env₁ env₂ clock => exact h.clientRevives hstep
  | wd a => exact h.wdStep hguard hstep
  | wdRevives => exact h.wdEnds (Or.inl rfl) hstep
  | wdDies => exact h.wdEnds (Or.inr (Or.inl rfl)) hstep
  | wdExits => exact h.wdEnds (Or.inr (Or.inr rfl)) hstep
  | begin => exact h.begin hguard hstep
  | signal => exact h.signal hstep
  | request => exact h.request hguard hstep
  | join => exact h.join (Or.inl rfl) hstep
  | exit => exact h.join (Or.inr rfl) hstep

/-- **A stopped watchdog stays stopped** in every orderly run: neither process executes
`ReviveProcess` after the call of `WDStop`. -/
theorem wdStop_noRevival {s : WdSystem} (hreached : systemMachine.ReachedBy Orderly s) :
    s.revived = false ∧
      (s.begun = true → s.client.pc ≠ some .revive ∧ s.wd.pc ≠ some .revive) := by
  have h : Inv s := hreached.invariant (fun _ hstart => inv_of_started hstart)
    fun _ _ _ h hguard hstep => h.step hguard hstep
  refine ⟨h.revived, fun hbegun => ?_⟩
  obtain ⟨hclient, hwd⟩ := h.settled (begun_iff.mp hbegun)
  exact ⟨hclient.revive, hwd.revive⟩

/-! ## Three runs -/

/-- The system has memory and an address. -/
def systemEnv : TaskEnv := ⟨true, 900, 6, some [49, 48]⟩

/-- The next task of a process is executed after a wait. -/
def turnOf (process : WdAction → SysAction) (wait statements : Nat) : List SysAction :=
  let turn : List WdAction :=
    [.loop .next] ++ (if wait = 0 then [] else [.loop (.sleep wait 0)]) ++ [.execute] ++
      List.replicate statements (.statement ⟨systemEnv, none⟩)
  turn.map process

/-- A client and a watchdog with an interval of one second that tolerate one missed
heartbeat. -/
def sampleSystem : Option WdSystem := do
  let client ← wdStart systemEnv systemEnv 0 900 false 51 1 1
  let wd ← wdStart systemEnv systemEnv 0 900 true 50 1 1
  some ⟨client, wd, true, true, 51, 51, .running, false, false, false, false, false⟩

/-- The sample system is one after `WDStart`. -/
theorem started_sampleSystem {s : WdSystem} (h : sampleSystem = some s) : Started s := by
  unfold sampleSystem at h
  obtain ⟨client, hclient, h⟩ := Option.bind_eq_some_iff.mp h
  obtain ⟨wd, hwd, h⟩ := Option.bind_eq_some_iff.mp h
  obtain rfl := Option.some.inj h
  exact ⟨_, _, _, _, _, _, _, 50, 51, 1, 1, client, wd, by decide, by decide, by decide,
    by decide, by decide, by decide, hclient, hwd, rfl⟩

/-- The watchdog answers before the flag of the client is 1, and ends.  The client takes its
flag back from 2 to 1, and misses the watchdog. -/
theorem wdStop_revivesLost :
    ¬ ∀ s : WdSystem, systemMachine.Reached s → s.revived = false := by
  intro hclaim
  have hrun : (sampleSystem.bind fun s => systemMachine.run s
      (turnOf .client 0 5 ++ turnOf .wd 0 5 ++
        ([.client .sigUsr1, .wd .sigUsr1] : List SysAction) ++
        ([.begin, .signal, .wd .sigUsr2, .wd .answer, .client .sigUsr2, .request] :
          List SysAction) ++
        turnOf .wd 1 3 ++ ([.wd (.loop .next), .wd (.loop .destroy), .wdExits] : List SysAction) ++
        turnOf .client 1 3 ++ turnOf .client 0 5 ++ turnOf .client 1 3 ++ turnOf .client 0 5 ++
        turnOf .client 1 3 ++
        ([.clientRevives 52 systemEnv systemEnv 903] : List SysAction))).map
          (fun s => s.revived) = some true := by
    decide +kernel
  obtain ⟨s', hrun, hrevived⟩ := Option.map_eq_some_iff.mp hrun
  obtain ⟨s, hstart, hrun⟩ := Option.bind_eq_some_iff.mp hrun
  have hreached : systemMachine.Reached s := .start (started_sampleSystem hstart)
  rw [hclaim s' (hreached.run hrun)] at hrevived
  cases hrevived

/-- A check of the client tests its flag for 2 only: with the flag at 1 and the signal to the
watchdog still pending it revives a watchdog that runs. -/
theorem wdStop_revivesRunning :
    ∃ s : WdSystem, systemMachine.Reached s ∧ s.revived = true ∧ s.gWdPid = 51 := by
  have hrun : (sampleSystem.bind fun s => systemMachine.run s
      (([.begin, .signal, .request] : List SysAction) ++ turnOf .client 0 5 ++
        turnOf .client 1 3 ++ turnOf .client 0 5 ++ turnOf .client 1 3 ++
          ([.clientRevives 52 systemEnv systemEnv 902] : List SysAction))).map
          (fun s => (s.revived, s.gWdPid)) = some (true, 51) := by
    decide +kernel
  obtain ⟨s', hrun, hshown⟩ := Option.map_eq_some_iff.mp hrun
  obtain ⟨s, hstart, hrun⟩ := Option.bind_eq_some_iff.mp hrun
  have hreached : systemMachine.Reached s := .start (started_sampleSystem hstart)
  exact ⟨s', hreached.run hrun, congrArg Prod.fst hshown, congrArg Prod.snd hshown⟩

/-- The steps of a stop in its order. -/
def orderlyStop : List SysAction :=
  [.begin, .signal, .request, .wd .sigUsr2, .wd .answer, .client .sigUsr2] ++ turnOf .wd 0 2 ++
    turnOf .wd 1 3 ++ [.wd (.loop .next), .wd (.loop .destroy), .wdExits] ++
    turnOf .client 0 2 ++ turnOf .client 1 3 ++
    [.client (.loop .next), .client (.loop .destroy), .join, .exit]

/-- Both processes end. -/
theorem wdStop_noRevival_sample :
    ∃ s : WdSystem, (s.main, s.clientAlive, s.wdAlive) = (MainPc.exited, false, false) ∧
      s.revived = false ∧
        (s.begun = true → s.client.pc ≠ some .revive ∧ s.wd.pc ≠ some .revive) := by
  have hrun : (sampleSystem.bind fun s =>
      if systemMachine.Admits Orderly s orderlyStop then systemMachine.run s orderlyStop
      else none).map (fun s => (s.main, s.clientAlive, s.wdAlive)) =
        some (.exited, false, false) := by
    decide +kernel
  obtain ⟨s', hrun, hshown⟩ := Option.map_eq_some_iff.mp hrun
  obtain ⟨s, hstart, hrun⟩ := Option.bind_eq_some_iff.mp hrun
  split at hrun
  · rename_i hadmits
    have hreached : systemMachine.ReachedBy Orderly s := .start (started_sampleSystem hstart)
    exact ⟨s', hshown, wdStop_noRevival (hreached.run hadmits hrun)⟩
  · cases hrun

end Wd
end InfinityLabs
