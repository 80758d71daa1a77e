import Inkwell.Net.ZipFetch.Course
import Inkwell.Net.ZipFetch.Ranges

namespace Inkwell.ZipFetch
open Net Http Zip Fetch

theorem zipFetchCancel_spares (h : s.app.zip.borrowed = false ∨ s.fetch.conn = none) :
    ∃ app files, zipFetchCancel s = { s with app, files } := by
  have hsame : (if s.app.zip.borrowed then fetchCancel s else s) = s := by
    rcases h with hborrowed | hidle
    · rw [hborrowed]
      rfl
    · unfold fetchCancel
      rw [hidle]
      exact ite_self s
  obtain ⟨_, files, _, _, heq⟩ := zipFetchCancel_ends
  rw [hsame] at heq
  exact ⟨_, files, heq⟩

theorem hostRun_owing (customer : Customer τ) (hasLoop : Bool) (world : World)
    (around : Surroundings) (files : Bytes → Option Bytes) (user : τ) (ops : List (HostOp τ)) :
    Owing never (hostRun customer (hostBoot hasLoop world around files user) ops).core := by
  obtain ⟨ops', hrun⟩ := hostRun_run customer (hostBoot hasLoop world around files user) ops
  rw [hrun]
  exact run_owing customer.callback _ (boot_resting hasLoop world files ({ around, user } : Host τ))
    (.over rfl rfl .nil) ops'

/-- A cancel of a download never started, or while no request is in flight, leaves the fetcher as
it was. A request of its owner's ends as it would have: once, unless given up later, and at its
deadline at the latest. -/
theorem run_cancel_spares (customer : Customer τ) (hasLoop : Bool) (world : World)
    (around : Surroundings) (files : Bytes → Option Bytes) (user : τ) (ops : List (HostOp τ))
    (s : System τ) (hs : s = hostRun customer (hostBoot hasLoop world around files user) ops)
    (hfree : s.app.zip.borrowed = false ∨ s.fetch.conn = none) :
    (∃ app files, zipFetchCancel s = { s with app, files }) ∧
    ∀ ops' conn id, s.fetch.conn = some conn → conn.onDone = some id →
      ∃ after, (hostRun customer s (.call .cancel :: ops')).trace = after ++ s.trace ∧
        (Ended id after ∨ endings after = [] ∧ (∀ e ∈ after, e.accepts = false) ∧
          ∃ conn', (hostRun customer s (.call .cancel :: ops')).fetch.conn = some conn' ∧
            conn'.onDone = some id ∧
            ∀ n, .ticked n ∈ thisFetch (hostRun customer s (.call .cancel :: ops')).trace →
              n < conn'.deadlineMs) := by
  have hspares := zipFetchCancel_spares hfree
  refine ⟨hspares, ?_⟩
  intro ops' conn _ hconn hid
  have howing : Owing never s.core := by
    rw [hs]
    exact hostRun_owing customer hasLoop world around files user ops
  have hlater : Owing never (hostRun customer s (.call .cancel :: ops')).core := by
    rw [hs, hostRun, hostRun, ← List.foldl_append]
    exact hostRun_owing customer hasLoop world around files user (ops ++ .call .cancel :: ops')
  have howed := (howing.flying _ (flight_core hconn)).owed.trans hid
  obtain ⟨after, hafter⟩ := (hostRun_moves customer (zipFetchCancel s) ops').trace
  obtain ⟨app, files', heq⟩ := hspares
  have hcancel : hostStep customer s (.call .cancel) = zipFetchCancel s := rfl
  rw [hostRun_cons, hcancel, heq] at hlater ⊢
  rw [heq] at hafter
  have htrace : (hostRun customer { s with app, files := files' } ops').trace = after ++ s.trace :=
    hafter.symm
  exact ⟨after, htrace, hlater.later htrace howed⟩

def ownerRequest : Request := { url := ascii "https://h/z", onDone := some 1 }

def ownerStart : HostOp Unit := .call (.fetcher (.start ownerRequest 0) (by decide : _ ≠ _))

/-- It is in flight while a download that was never started is cancelled. -/
theorem run_cancel_spares_owner :
    let s :=
      hostRun idleCustomer (hostBoot true (sampleWorld [sampleLength 0]) {} (fun _ => none) ())
      [ownerStart]
    s.fetch.conn.map Conn.onDone = some (some 1) ∧ s.app.zip.borrowed = false ∧
    (∃ app files, zipFetchCancel s = { s with app, files }) ∧
    ∃ after, (hostRun idleCustomer s [.call .cancel, .socketEvent Runtime.OUT]).trace =
        after ++ s.trace ∧
      (Ended 1 after ∨ endings after = [] ∧ (∀ e ∈ after, e.accepts = false) ∧
        ∃ conn', (hostRun idleCustomer s [.call .cancel, .socketEvent Runtime.OUT]).fetch.conn =
            some conn' ∧ conn'.onDone = some 1 ∧
          ∀ n, .ticked n ∈ thisFetch
              (hostRun idleCustomer s [.call .cancel, .socketEvent Runtime.OUT]).trace →
            n < conn'.deadlineMs) := by
  intro s
  have hflight : s.fetch.conn.map Conn.onDone = some (some 1) := by decide
  have hunborrowed : s.app.zip.borrowed = false := by decide
  obtain ⟨conn, hconn, hid⟩ := Option.map_eq_some_iff.mp hflight
  obtain ⟨hspares, hlater⟩ := run_cancel_spares idleCustomer true (sampleWorld [sampleLength 0]) {}
    (fun _ => none) () [ownerStart] s rfl (.inl hunborrowed)
  exact ⟨hflight, hunborrowed, hspares, hlater _ conn 1 hconn hid⟩

/-- The cancel of a failed download takes a request of its owner's with it, whose completion is
never called. -/
theorem cancel_takes_request :
    let s := hostRun idleCustomer
      (hostBoot true (sampleWorld [sampleLength 10, sampleLength 0]) {} (fun _ => none) ())
      [.call (.start sampleRequest), .socketEvent Runtime.OUT, ownerStart]
    s.app.zip.state = .failed ∧ s.fetch.conn.map Conn.onDone = some (some 1) ∧
    (zipFetchCancel s).fetch.conn.isNone ∧ (zipFetchCancel s).trace = .cancelled :: s.trace := by
  decide

end Inkwell.ZipFetch
