import WorkflowKeeper.Client
import WorkflowKeeper.Proofs.Runs
import Mathlib.Order.Bounds.Basic
import Mathlib.Order.Nat

namespace WorkflowKeeper

open Runs

def Reply.isTransient : Reply → Bool
  | .lost _ _ => true
  | .stopped => false
  | .answer r _ => 500 ≤ r.status

def Reply.stopsRun : Reply → Bool
  | .lost _ stops | .answer _ stops => stops
  | .stopped => true

namespace Client

variable {α : Type} {c : Client} {decode : Json → Option α} {url : String} {s : Session} {reply : Reply}

/-- The replies to the next requests for an address. -/
def replies (c : Client) (url : String) (s : Session) (n : Nat) : Reply := c.server url (s.sent.count url + n)

/-- What a reply says: a page, that there is none, or why there is no telling. -/
inductive Says (c : Client) (decode : Json → Option α) (url : String) :
    Reply → Except LookupError (Option (Page α)) → Prop
  | page {r : Response} {stops : Bool} {body : α} (success : 200 ≤ r.status ∧ r.status < 300)
      (decoded : (Json.parse? r.body).bind decode = some body) :
      Says c decode url (.answer r stops) (.ok (some ⟨body, r.next?⟩))
  | absent {r : Response} {stops : Bool} (unknown : r.status = 404) : Says c decode url (.answer r stops) (.ok none)
  | rateLimited {r : Response} {stops : Bool} (limited : r.isRateLimited = true) :
      Says c decode url (.answer r stops) (.error .rateLimited)
  | status {r : Response} {stops : Bool} (known : r.status ≠ 404) (unlimited : r.isRateLimited = false)
      (failure : ¬(200 ≤ r.status ∧ r.status < 300)) :
      Says c decode url (.answer r stops) (.error (.status r.status url))
  | undecodable {r : Response} {stops : Bool} (success : 200 ≤ r.status ∧ r.status < 300)
      (decoded : (Json.parse? r.body).bind decode = none) :
      Says c decode url (.answer r stops) (.error (.undecodable url "error decoding response body"))
  | transport {loss : Loss} {stops : Bool} (lost : loss ≠ .silent) :
      Says c decode url (.lost loss stops) (.error (.transport ("error sending request for url (" ++ url ++ ")")))
  | timeout {stops : Bool} :
      Says c decode url (.lost .silent stops) (.error (.timeout url (c.settings.timeoutMillis / 1000)))
  | stopped : Says c decode url .stopped (.error .cancelled)

theorem status_of_isRateLimited {r : Response} (h : r.isRateLimited = true) : r.status = 429 ∨ r.status = 403 := by
  simp only [Response.isRateLimited, Bool.or_eq_true, Bool.and_eq_true, beq_iff_eq] at h
  exact h.imp_right And.left

theorem says_lossError (loss : Loss) (stops : Bool) :
    c.Says decode url (.lost loss stops) (.error (c.lossError url loss)) := by
  cases loss with
  | unreachable | dropped => exact .transport (by decide)
  | silent => exact .timeout

theorem says_readResponse (r : Response) (stops : Bool) :
    c.Says decode url (.answer r stops) (readResponse decode url r) := by
  rw [readResponse]
  split
  · next h404 => exact .absent (by simpa using h404)
  · next h404 =>
      split
      · next hlimited => exact .rateLimited hlimited
      · next hlimited =>
          split
          · next hfailure =>
              refine .status (by simpa using h404) (Bool.eq_false_iff.mpr hlimited) ?_
              simp only [Bool.or_eq_true, decide_eq_true_eq] at hfailure
              omega
          · next hsuccess =>
              have hsuccess : 200 ≤ r.status ∧ r.status < 300 := by
                simp only [Bool.or_eq_true, decide_eq_true_eq] at hsuccess
                omega
              split
              · next hbody => exact .page hsuccess hbody
              · next hbody => exact .undecodable hsuccess hbody

theorem Says.isTransient_error {e : LookupError} (h : c.Says decode url reply (.error e)) :
    e.isTransient = reply.isTransient := by
  cases h with
  | rateLimited limited =>
      have hstatus := status_of_isRateLimited limited
      simp only [LookupError.isTransient, Reply.isTransient, false_eq_decide_iff]
      omega
  | undecodable success =>
      simp only [LookupError.isTransient, Reply.isTransient, false_eq_decide_iff]
      omega
  | status | transport | timeout | stopped => rfl

theorem Says.isTransient_ok {found : Option (Page α)} (h : c.Says decode url reply (.ok found)) :
    reply.isTransient = false := by
  cases h with
  | page success | absent success =>
      simp only [Reply.isTransient, decide_eq_false_iff_not]
      omega

theorem Says.unique {result other : Except LookupError (Option (Page α))} (h : c.Says decode url reply result)
    (h' : c.Says decode url reply other) : result = other := by
  cases h <;> cases h' <;> grind [status_of_isRateLimited]

theorem run_liftExcept {β : Type} (r : Except LookupError β) (s : Session) :
    (fetchOnce.liftExcept r).run s = (r, s) := by
  cases r <;> rfl

theorem fetchOnce_told (c : Client) (decode : Json → Option α) (url : String) {s : Session} (hs : s.stopped = false) :
    c.Says decode url (c.replies url s 0) ((c.fetchOnce decode url).run s).1 ∧
      ((c.fetchOnce decode url).run s).2.sent = url :: s.sent ∧
      ((c.fetchOnce decode url).run s).2.stopped = (c.replies url s 0).stopsRun := by
  rw [fetchOnce, run_bind, run_get]
  simp only [hs, Bool.false_eq_true, if_false]
  rw [replies, Nat.add_zero]
  cases c.server url (s.sent.count url) with
  | lost loss stops => cases loss <;> exact ⟨says_lossError _ stops, rfl, rfl⟩
  | stopped => exact ⟨.stopped, rfl, rfl⟩
  | answer r stops =>
      simp only [run_bind, run_set, run_liftExcept]
      exact ⟨says_readResponse r stops, rfl, rfl⟩

theorem replies_of_sent {t : Session} (h : t.sent = url :: s.sent) (n : Nat) :
    c.replies url t n = c.replies url s (n + 1) := by
  rw [replies, replies, h, List.count_cons_self, Nat.add_assoc, Nat.add_comm 1 n]

theorem fetch_succ_run (hs : s.stopped = false) (retries : Nat) :
    (c.fetch decode url (retries + 1)).run s =
      let p := (c.fetchOnce decode url).run s
      if (c.replies url s 0).isTransient then
        if (c.replies url s 0).stopsRun then (.error .cancelled, { p.2 with acts := .brokenOff :: p.2.acts })
        else (c.fetch decode url retries).run p.2
      else p := by
  obtain ⟨hsaid, -, hstopped⟩ := c.fetchOnce_told decode url hs
  rw [fetch, run_tryCatch]
  generalize (c.fetchOnce decode url).run s = p at hsaid hstopped ⊢
  obtain ⟨e | found, t⟩ := p
  · dsimp only at hsaid hstopped ⊢
    rw [hsaid.isTransient_error, ← hstopped]
    cases (c.replies url s 0).isTransient with
    | false => rfl
    | true =>
        rw [if_pos rfl, Bool.not_true, if_neg Bool.false_ne_true, run_bind, run_get]
        dsimp only
        split <;> rfl
  · dsimp only at hsaid ⊢
    rw [if_neg (Bool.eq_false_iff.mp hsaid.isTransient_ok)]

theorem fetch_run_of_final {retries : Nat} (hs : s.stopped = false)
    (hfinal : retries = 0 ∨ (c.replies url s 0).isTransient = false) :
    (c.fetch decode url retries).run s = (c.fetchOnce decode url).run s := by
  cases retries with
  | zero => rfl
  | succ retries =>
      obtain hzero | hfinal := hfinal
      · cases hzero
      · rw [fetch_succ_run hs, if_neg (Bool.eq_false_iff.mp hfinal)]

/-- Up to the last reply, which is the first that is not transient or the one at the limit, a request is sent for each,
unless the run is stopped in one of the waits between them. -/
theorem fetch_run (decode : Json → Option α) {retries last : Nat} (hs : s.stopped = false) (hlimit : last ≤ retries)
    (hbefore : ∀ n < last, (c.replies url s n).isTransient = true)
    (hlast : last = retries ∨ (c.replies url s last).isTransient = false) :
    let p := (c.fetch decode url retries).run s
    ((∀ n < last, (c.replies url s n).stopsRun = false) →
      c.Says decode url (c.replies url s last) p.1 ∧ p.2.sent = List.replicate (last + 1) url ++ s.sent) ∧
    ∀ n < last, (∀ m < n, (c.replies url s m).stopsRun = false) → (c.replies url s n).stopsRun = true →
      p.1 = .error .cancelled ∧ p.2.sent = List.replicate (n + 1) url ++ s.sent := by
  -- By the place of the last reply: after a request that is sent again, the replies begin one place later.
  induction last generalizing retries s with
  | zero =>
      obtain ⟨hsaid, hsent, -⟩ := c.fetchOnce_told decode url hs
      rw [fetch_run_of_final hs (hlast.imp_left Eq.symm)]
      exact ⟨fun _ => ⟨hsaid, hsent⟩, fun n hn => absurd hn (Nat.not_lt_zero n)⟩
  | succ last ih =>
      obtain ⟨retries, rfl⟩ : ∃ k, retries = k + 1 := Nat.exists_eq_add_one.mpr (by omega)
      obtain ⟨-, hsent, hstopped⟩ := c.fetchOnce_told decode url hs
      rw [fetch_succ_run hs, if_pos (hbefore 0 (Nat.succ_pos last))]
      cases hstop : (c.replies url s 0).stopsRun with
      | true =>
          rw [if_pos rfl]
          refine ⟨fun hruns => ?_, fun n _ hruns _ => ?_⟩
          · rw [hruns 0 (Nat.succ_pos last)] at hstop
            cases hstop
          · cases n with
            | zero => exact ⟨rfl, hsent⟩
            | succ n =>
                rw [hruns 0 (Nat.succ_pos n)] at hstop
                cases hstop
      | false =>
          rw [if_neg Bool.false_ne_true]
          rw [hstop] at hstopped
          generalize ((c.fetchOnce decode url).run s).2 = t at hsent hstopped ⊢
          have hnext (n : Nat) : c.replies url s (n + 1) = c.replies url t n := (replies_of_sent hsent n).symm
          have hrow (n : Nat) : List.replicate (n + 1) url ++ t.sent = List.replicate (n + 2) url ++ s.sent := by
            rw [hsent, List.append_cons, ← List.replicate_succ']
          obtain ⟨hresult, hwait⟩ := ih hstopped (Nat.le_of_succ_le_succ hlimit)
            (fun n hn => hnext n ▸ hbefore (n + 1) (Nat.succ_lt_succ hn))
            (hlast.imp Nat.succ.inj fun h => hnext last ▸ h)
          constructor
          · intro hruns
            rw [hnext, ← hrow]
            exact hresult fun n hn => hnext n ▸ hruns (n + 1) (Nat.succ_lt_succ hn)
          · intro n hn hruns hstops
            cases n with
            | zero =>
                rw [hstop] at hstops
                cases hstops
            | succ n =>
                rw [← hrow]
                exact hwait n (Nat.lt_of_succ_lt_succ hn) (fun m hm => hnext m ▸ hruns (m + 1) (Nat.succ_lt_succ hm))
                  (hnext n ▸ hstops)

/-- In a run that is not stopped, the last reply to a request is the first that is not transient, but at the latest the
one that the limit of retries allows. A request is sent for each reply to the last one, no other is sent, and the result
is exactly what the last reply says. When the run is stopped in the wait after an earlier reply, that was the last
request, and the result says so. -/
theorem requests_end_with_last_reply (c : Client) (decode : Json → Option α) (url : String) {s : Session}
    (hs : s.stopped = false) :
    ∃ last, IsLeast {n | n = c.settings.maxRetries ∨ (c.replies url s n).isTransient = false} last ∧
      let p := (c.get? decode url).run s
      ((∀ n < last, (c.replies url s n).stopsRun = false) →
        (∀ result, c.Says decode url (c.replies url s last) result ↔ p.1 = result) ∧
          p.2.sent = List.replicate (last + 1) url ++ s.sent) ∧
      ∀ n < last, (∀ m < n, (c.replies url s m).stopsRun = false) → (c.replies url s n).stopsRun = true →
        p.1 = .error .cancelled ∧ p.2.sent = List.replicate (n + 1) url ++ s.sent := by
  have hends : ∃ n, n = c.settings.maxRetries ∨ (c.replies url s n).isTransient = false := ⟨_, .inl rfl⟩
  have hleast := Nat.isLeast_find hends
  have hbefore : ∀ n < Nat.find hends, (c.replies url s n).isTransient = true := fun n hn =>
    eq_true_of_ne_false fun hfinal => Nat.find_min hends hn (.inr hfinal)
  obtain ⟨hanswer, hwait⟩ := fetch_run decode hs (hleast.2 (.inl rfl)) hbefore hleast.1
  refine ⟨Nat.find hends, hleast, fun hruns => ?_, hwait⟩
  obtain ⟨hsaid, hsent⟩ := hanswer hruns
  exact ⟨fun result => ⟨hsaid.unique, fun h => h ▸ hsaid⟩, hsent⟩

def recoveringServer (stops : Bool) : Server where
  reply := fun _ n =>
    match n with
    | 0 => .answer ⟨502, [], ""⟩ false
    | 1 => .lost .dropped stops
    | _ => .answer ⟨200, [], "\x7b\"tag_name\": \"v1\"\x7d"⟩ false
  morePages := 0

def recovering (stops : Bool) : Client := ⟨.standard, recoveringServer stops⟩

theorem recovering_last (stops : Bool) :
    IsLeast {n | n = 2 ∨ ((recovering stops).replies "u" .start n).isTransient = false} 2 := by
  refine ⟨.inl rfl, fun n hn => ?_⟩
  obtain rfl | hfinal := hn
  · exact le_rfl
  · match n with
    | 0 => cases hfinal
    | 1 => cases hfinal
    | n + 2 => exact Nat.le_add_left 2 n

/-- The third request is answered; when the run is stopped in the wait before it, it is not sent. -/
theorem third_request_is_answered :
    Session.start.stopped = false ∧
      (((recovering false).get? Body.release? "u").run .start).1 = .ok (some ⟨"v1", none⟩) ∧
      (((recovering false).get? Body.release? "u").run .start).2.sent = ["u", "u", "u"] ∧
      (((recovering true).get? Body.release? "u").run .start).1 = .error .cancelled ∧
      (((recovering true).get? Body.release? "u").run .start).2.sent = ["u", "u"] := by
  have hrunning : Session.start.stopped = false := rfl
  obtain ⟨last, hlast, hanswer, -⟩ := requests_end_with_last_reply (recovering false) Body.release? "u" hrunning
  obtain ⟨last', hlast', -, hwait⟩ := requests_end_with_last_reply (recovering true) Body.release? "u" hrunning
  obtain rfl := hlast.unique (recovering_last false)
  obtain rfl := hlast'.unique (recovering_last true)
  obtain ⟨hsaid, hsent⟩ := hanswer (by decide)
  obtain ⟨hstopped, hsent'⟩ := hwait 1 (by decide) (by decide) rfl
  have hbody : (Json.parse? "\x7b\"tag_name\": \"v1\"\x7d").bind Body.release? = some "v1" := by decide +kernel
  exact ⟨hrunning, (hsaid _).mp (.page (by decide) hbody), hsent, hstopped, hsent'⟩

end Client

end WorkflowKeeper
