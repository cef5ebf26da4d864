import YFS.Lock.Cache
import YFS.Lock.View

/-! # The counter of waiting threads

`wait_threads` goes up when a thread enters `acquire` and down when it is granted the
lock. Whatever the server answers, it is the number of the threads in between.
-/

namespace YFS.Lock
open YFS.Library

variable {τ ω : Type} [DecidableEq τ] [DecidableEq ω]

def ClientView.Counted (v : ClientView τ ω) : Prop :=
  ∃ S : Finset τ, (∀ t, t ∈ S ↔ v.thread t ≠ .idle) ∧
    v.entry.elim 0 CacheLock.waitThreads = S.card

/-- The counter of an entry that is not yet in the table is right with `t` among the threads. -/
def ClientView.CountedWith (v : ClientView τ ω) (t : τ) (e : CacheLock τ) : Prop :=
  ∃ S : Finset τ, (∀ u, u ∈ S ↔ u = t ∨ v.thread u ≠ .idle) ∧ e.waitThreads = S.card

namespace ClientView
variable {v : ClientView τ ω} {t : τ} {e f : CacheLock τ}

omit [DecidableEq ω] in
theorem Counted.enter (hc : v.Counted) (ht : v.thread t = .idle)
    (he : f.waitThreads = (v.entry.getD .new).waitThreads + 1) : v.CountedWith t f := by
  obtain ⟨S, hS, hn⟩ := hc
  have htS : t ∉ S := by
    rw [hS]
    exact not_not_intro ht
  refine ⟨insert t S, fun u => by rw [Finset.mem_insert, hS], ?_⟩
  rw [he, Finset.card_insert_of_notMem htS, Nat.cast_succ, ← hn]
  cases v.entry <;> rfl

omit [DecidableEq τ] [DecidableEq ω] in
theorem Counted.inside (hc : v.Counted) (ht : v.thread t ≠ .idle) (he : v.entry = some e) :
    v.CountedWith t e := by
  obtain ⟨S, hS, hn⟩ := hc
  rw [he, Option.elim_some] at hn
  refine ⟨S, fun u => ?_, hn⟩
  rw [hS]
  constructor
  · exact Or.inr
  · rintro (rfl | hu)
    · exact ht
    · exact hu

omit [DecidableEq ω] in
theorem CountedWith.leave (hc : v.CountedWith t e) (he : f.waitThreads = e.waitThreads - 1) :
    (((v.setEntry f).setThread t .idle).setHeld t true).Counted := by
  obtain ⟨S, hS, hn⟩ := hc
  have htS : t ∈ S := (hS t).mpr (Or.inl rfl)
  refine ⟨S.erase t, fun u => ?_, ?_⟩
  · rw [Finset.mem_erase, hS]
    by_cases hu : u = t <;> simp [setHeld, setThread, setEntry, hu]
  · have hcard := Finset.card_erase_add_one htS
    simp only [setHeld, setThread, setEntry, Option.elim_some]
    omega

omit [DecidableEq ω] in
theorem CountedWith.stay (hc : v.CountedWith t e) (he : f.waitThreads = e.waitThreads)
    {pc : ThreadPc} (hpc : pc ≠ .idle) : ((v.setEntry f).setThread t pc).Counted := by
  obtain ⟨S, hS, hn⟩ := hc
  refine ⟨S, fun u => ?_, he.trans hn⟩
  rw [hS]
  by_cases hu : u = t <;> simp [setThread, setEntry, hu, hpc]

omit [DecidableEq ω] in
theorem Counted.setThread (hc : v.Counted) (ht : v.thread t ≠ .idle) {pc : ThreadPc}
    (hpc : pc ≠ .idle) : (v.setThread t pc).Counted := by
  obtain ⟨S, hS, hn⟩ := hc
  refine ⟨S, fun u => ?_, hn⟩
  rw [hS]
  by_cases hu : u = t <;> simp [ClientView.setThread, hu, hpc, ht]

omit [DecidableEq τ] [DecidableEq ω] in
theorem Counted.setEntry (hc : v.Counted) (he : v.entry = some e)
    (hn : f.waitThreads = e.waitThreads) : (v.setEntry f).Counted := by
  obtain ⟨S, hS, hcard⟩ := hc
  rw [he, Option.elim_some] at hcard
  exact ⟨S, hS, hn.trans hcard⟩

omit [DecidableEq τ] [DecidableEq ω] in
theorem Counted.congr {v' : ClientView τ ω} (hc : v.Counted) (he : v'.entry = v.entry)
    (ht : v'.thread = v.thread) : v'.Counted := by
  obtain ⟨S, hS, hn⟩ := hc
  refine ⟨S, fun t => ?_, ?_⟩
  · rw [ht, hS]
  · rw [he, hn]

end ClientView

section Client
variable {lid : ℕ} {cl : Client τ ω} {t : τ} {w : ω} {e f : CacheLock τ}

omit [DecidableEq ω] in
theorem Client.counted_grant (hc : (cl.view lid).CountedWith t e) :
    ((cl.grant t lid e).view lid).Counted := by
  rw [grant, view_setHeld, view_setThread, view_setEntry]
  exact hc.leave rfl

omit [DecidableEq ω] in
theorem Client.counted_startCall (hc : (cl.view lid).CountedWith t e) :
    ((cl.startCall t lid e).view lid).Counted := by
  rw [startCall, view_setThread, view_setEntry]
  exact hc.stay rfl (by simp)

omit [DecidableEq ω] in
theorem Client.counted_retryWait (hc : (cl.view lid).CountedWith t e) :
    ((cl.retryWait t lid e).view lid).Counted := by
  rw [retryWait]
  split
  · exact counted_grant hc
  · exact counted_startCall hc
  · rw [view_setThread, view_setEntry]
    exact hc.stay rfl (by simp)

variable (hc : (cl.view lid).Counted)
include hc

omit [DecidableEq ω] in
theorem Client.counted_acquire (ht : cl.thread t = .idle) :
    ((cl.acquire t lid).view lid).Counted := by
  have hin := hc.enter (t := t) (by simp [view, ht])
    (f := { (cl.table lid).getD .new with
      waitThreads := ((cl.table lid).getD .new).waitThreads + 1 }) rfl
  simp only [acquire]
  split
  · split
    · exact counted_grant hin
    · exact counted_retryWait hin
  · exact counted_retryWait hin
  · exact counted_retryWait hin
  · exact counted_startCall hin
  · exact counted_grant hin

omit [DecidableEq ω] in
theorem Client.counted_acquireReturn {res : CallResult} (ht : (cl.thread t).lock = some lid)
    (he : cl.table lid = some e) : ((cl.acquireReturn t lid e res).view lid).Counted := by
  have hin : (cl.view lid).CountedWith t e := by
    apply hc.inside _ he
    cases hpc : cl.thread t <;> simp_all [view, ThreadPc.lock]
  rw [acquireReturn]
  split
  · exact counted_retryWait hin
  · exact counted_grant hin

omit [DecidableEq τ] [DecidableEq ω] in
theorem Client.counted_setEntry (he : cl.table lid = some e)
    (hn : f.waitThreads = e.waitThreads) : ((cl.setEntry lid f).view lid).Counted := by
  rw [view_setEntry]
  exact hc.setEntry he hn

theorem Client.counted_release (pt : Option τ) (pw : Option ω) :
    ((cl.release t lid pt pw).2.view lid).Counted := by
  have hheld : ((cl.setHeld t lid false).view lid).Counted := hc.congr rfl rfl
  rw [release]
  split
  · exact hheld
  · rename_i e he
    split
    · have hent := counted_setEntry hheld (f := { e with state := .FREE }) he rfl
      dsimp only
      split
      · rwa [view_signalTmout]
      · split
        · rwa [view_signalRevoke]
        · rwa [view_signalQueue]
    · exact hheld

omit [DecidableEq τ] in
theorem Client.counted_revokeLoop (he : cl.table lid = some e)
    (hn : f.waitThreads = e.waitThreads) : ((cl.revokeLoop w lid f).1.view lid).Counted := by
  rw [revokeLoop]
  split
  · have hent := counted_setEntry hc (f := { f with ifrevoke := false, state := .RELEASING }) he hn
    exact hent.congr rfl rfl
  · exact (counted_setEntry hc he hn).congr rfl rfl

omit [DecidableEq τ] in
theorem Client.counted_revokeHandler : ((cl.revokeHandler w lid).1.view lid).Counted := by
  rw [revokeHandler]
  split
  · exact hc
  · rename_i e he
    exact counted_revokeLoop hc he rfl

omit [DecidableEq ω] in
theorem Client.counted_retryHandler (pick : Option τ) :
    ((cl.retryHandler lid pick).1.view lid).Counted := by
  rw [retryHandler]
  split
  · exact hc
  · rename_i e he
    split
    · rw [view_signalQueue]
      exact counted_setEntry hc he rfl
    · exact hc

omit [DecidableEq τ] in
theorem Client.counted_sendRelease (he : cl.table lid = some e)
    (hn : f.waitThreads = e.waitThreads) : ((cl.sendRelease w lid f).view lid).Counted :=
  (counted_setEntry hc (f := { f with iftimout := false, ifrlsreq := false, state := .RELEASING })
    he hn).congr rfl rfl

omit [DecidableEq τ] in
theorem Client.counted_releaserRpc (he : cl.table lid = some e) :
    ((cl.releaserRpc w lid e).view lid).Counted := by
  rw [releaserRpc]
  split
  · have hent := counted_setEntry hc (f := { e with state := .FREE, ifrlsreq := true }) he rfl
    exact hent.congr rfl rfl
  · exact counted_sendRelease hc he rfl

omit [DecidableEq τ] in
theorem Client.counted_tmoutWake (he : cl.table lid = some e) :
    ((cl.tmoutWake w lid e).view lid).Counted := by
  rw [tmoutWake]
  split
  · exact counted_sendRelease hc he rfl
  · exact (counted_setEntry hc (f := { e with iftimout := true }) he rfl).congr rfl rfl

theorem Client.counted_releaseReturn {ret : Status} (he : cl.table lid = some e)
    (pick : Option τ) : ((cl.releaseReturn w lid e ret pick).view lid).Counted := by
  rw [releaseReturn]
  split
  · have hent := counted_setEntry hc (f := { e with owner := none, state := .NONE }) he rfl
    dsimp only
    split
    · rw [view_signalQueue]
      exact hent.congr rfl rfl
    · exact hent.congr rfl rfl
  · exact hc.congr rfl rfl

end Client

def Cache.Counted (s : Cache τ ω) : Prop := ∀ lid, (s.client.view lid).Counted

omit [DecidableEq τ] [DecidableEq ω] in
theorem Cache.counted_init : (Cache.init : Cache τ ω).Counted :=
  fun _ => ⟨∅, by simp [init, Client.new, Client.view], rfl⟩

theorem Cache.Counted.step {s s' : Cache τ ω} {ev : CacheEvent τ ω} (hc : s.Counted)
    (h : s.step ev = some s') : s'.Counted := by
  intro lid
  have hlid := hc lid
  rcases same_or_moves h lid with hsame | hm
  · rw [Client.view_congr hsame.1]
    exact hlid
  · cases hm with
    | acquire t ht => exact Client.counted_acquire hlid ht
    | acquireWake ht he =>
      exact Client.counted_retryWait (hlid.inside (by simp [Client.view, ht]) he)
    | answer ret ht hret =>
      change ((s.client.setThread _ _).view lid).Counted
      rw [Client.view_setThread]
      exact hlid.setThread (by simp [Client.view, ht]) (by simp)
    | answerRetry ht =>
      change ((s.client.setThread _ _).view lid).Counted
      rw [Client.view_setThread]
      exact hlid.setThread (by simp [Client.view, ht]) (by simp)
    | acquireReturn res ht he =>
      apply Client.counted_acquireReturn hlid _ he
      rcases ht with ht | ⟨ret, ht⟩ <;> simp [ht, ThreadPc.lock]
    | release t pt pw ht => exact Client.counted_release hlid pt pw
    | revoke w hw => exact Client.counted_revokeHandler hlid
    | revokeWake hw he => exact Client.counted_revokeLoop hlid he rfl
    | retry pick => exact Client.counted_retryHandler hlid pick
    | releaser hd hq =>
      apply hlid.congr
      · simp [setClient, Client.releaserTurn, hq, Client.view]
      · simp [setClient, Client.releaserTurn, hq, Client.view]
    | releaserTake hw hj => exact hlid.congr rfl rfl
    | releaserRpc hw he hst => exact Client.counted_releaserRpc hlid he
    | tmoutWake hw he => exact Client.counted_tmoutWake hlid he
    | releaseReturn res pick hw he hst => exact Client.counted_releaseReturn hlid he pick

end YFS.Lock
