/-
# The requests of one call

A call of the service over HTTP sends its request until a reply settles it: an answer of the
service itself, which any final status is but that of a gateway that failed (`Reply.settles`).
The call attempts no more often than its limit, which is one where a repetition would change
the session (`Operation.limit`). An attempt that is not settled is followed by another with one
attempt less, so the requests are as many as there are replies up to the first that settles, if
the limit allows for them (`Client.attempt_exact`), all alike; and what the call comes to is
decided by that reply alone (`Operation.run_exact`).

Key definitions: `Reply.settles`, `Reply.text`, `requestsNeeded`, `settling`, `Verdict`,
`Operation`, `Operation.limit`.
Key theorems: `Client.attempt_exact`, `Client.attempt_nowhere`, `Operation.run_exact`.
-/
import Brokerage.Http.Client

namespace Brokerage
namespace Http

/-! ### Replies -/

namespace Reply

/-- The reply is an answer of the service itself: a final status, and not one of a gateway that
may work again. -/
def settles : Reply → Bool
  | .silence => false
  | .answer status _ _ => isFinal status && !isTransient status

def succeeds : Reply → Bool
  | .silence => false
  | .answer status _ _ => isSuccess status

/-- What is read from the reply; answers of some kinds have no body. -/
def text : Reply → String
  | .silence => ""
  | .answer status body _ => if isBodiless status then "" else body

/-- The body arrives whole, if there is one. -/
def isWhole : Reply → Bool
  | .silence => true
  | .answer _ _ complete => complete

variable {reply : Reply} (address : String)

theorem settles_of_succeeds (h : reply.succeeds = true) : reply.settles = true := by
  cases reply with
  | silence => cases h
  | answer status body complete =>
    simp only [succeeds, isSuccess, Bool.and_eq_true, decide_eq_true_eq] at h
    simp only [settles, isFinal, isTransient, Bool.and_eq_true, Bool.or_eq_true,
      Bool.not_eq_true', Bool.and_eq_false_iff, beq_iff_eq, decide_eq_true_eq,
      decide_eq_false_iff_not]
    omega

theorem outcome_of_status {status : Nat} (body : String) (complete : Bool)
    (hfinal : isFinal status = true) (hsuccess : isSuccess status = false) :
    ∃ text, (answer status body complete).outcome address = .error (.status status text) := by
  simp [outcome, hfinal, hsuccess]

/-- What does not settle a call is a failure after which another attempt may do better. -/
theorem outcome_of_not_settles (h : reply.settles = false) :
    ∃ failure, reply.outcome address = .error failure ∧ failure.transient = true := by
  cases reply with
  | silence => exact ⟨_, rfl, rfl⟩
  | answer status body complete =>
    simp only [settles, Bool.and_eq_false_iff, Bool.not_eq_false'] at h
    by_cases hfinal : isFinal status = true
    · have htransient : isTransient status = true := h.resolve_left (by simp [hfinal])
      have hsuccess : isSuccess status = false := by
        simp only [isTransient, Bool.and_eq_true, decide_eq_true_eq] at htransient
        simp only [isSuccess, Bool.and_eq_false_iff, decide_eq_false_iff_not]
        omega
      obtain ⟨text, htext⟩ := outcome_of_status address body complete hfinal hsuccess
      exact ⟨_, htext, htransient⟩
    · refine ⟨.unanswered address, ?_, rfl⟩
      simp [outcome, hfinal]

theorem outcome_of_succeeds (h : reply.succeeds = true) (hwhole : reply.isWhole = true) :
    reply.outcome address = .ok (some reply.text) := by
  have hsettles := settles_of_succeeds h
  cases reply with
  | silence => cases h
  | answer status body complete =>
    have hfinal : isFinal status = true := (Bool.and_eq_true_iff.mp hsettles).1
    have hsuccess : isSuccess status = true := h
    have hcomplete : complete = true := hwhole
    simp only [outcome, text, hfinal, hsuccess, hcomplete, Bool.not_true, Bool.false_eq_true,
      if_false, if_true]
    split <;> rfl

/-- What settles a call and is no success is a failure for good. -/
theorem outcome_of_fails (h : reply.settles = true) (hfails : reply.succeeds = false) :
    ∃ failure, reply.outcome address = .error failure ∧ failure.transient = false := by
  cases reply with
  | silence => cases h
  | answer status body complete =>
    obtain ⟨hfinal, hlasting⟩ := Bool.and_eq_true_iff.mp h
    obtain ⟨text, htext⟩ := outcome_of_status address body complete hfinal hfails
    exact ⟨_, htext, (Bool.not_eq_true' _).mp hlasting⟩

end Reply

/-! ### How many requests, and which reply decides -/

/-- The number of requests that a call makes with a limit, told by the replies to come: up to
the first that settles it. -/
def requestsNeeded (limit : Nat) (replies : List Reply) : Nat :=
  match replies.findIdx? Reply.settles with
  | some i => min (i + 1) limit
  | none => limit

/-- The reply that settles a call within a limit. -/
def settling (limit : Nat) (replies : List Reply) : Option Reply :=
  (replies.take limit).find? Reply.settles

theorem requestsNeeded_zero (replies : List Reply) : requestsNeeded 0 replies = 0 := by
  unfold requestsNeeded
  split
  · exact Nat.min_zero _
  · rfl

/-- The next reply, and the ones after it. One that is missing is silence. -/
theorem requestsNeeded_succ (limit : Nat) (replies : List Reply) :
    requestsNeeded (limit + 1) replies =
      if (replies.headD .silence).settles then 1 else requestsNeeded limit replies.tail + 1 := by
  unfold requestsNeeded
  cases replies with
  | nil => rfl
  | cons reply replies =>
    rw [List.findIdx?_cons]
    by_cases h : reply.settles = true
    · simp [h]
    · cases hi : replies.findIdx? Reply.settles <;> simp [h, hi]

theorem settling_succ (limit : Nat) (replies : List Reply) :
    settling (limit + 1) replies =
      if (replies.headD .silence).settles then some (replies.headD .silence)
      else settling limit replies.tail := by
  unfold settling
  cases replies with
  | nil => simp [Reply.settles]
  | cons reply replies =>
    rw [List.take_succ_cons, List.find?_cons]
    by_cases h : reply.settles = true <;> simp [h]

/-- What a call comes to by the reply that settles it: without one it failed on the way. -/
inductive Verdict : Option Reply → Except ServiceFault (Option String) → Prop
  | unsettled (reason : String) : Verdict none (.error (.transport reason))
  | answered {reply : Reply} (h : reply.succeeds = true) :
    Verdict (some reply) (.ok (some reply.text))
  | refused {reply : Reply} (h : reply.succeeds = false) (reason : String) :
    Verdict (some reply) (.error (.protocol reason))

namespace Client

/-- A client after some requests, all alike, with the replies that it took. -/
structure Sent (c c' : Client) (request : Request) (count : Nat) : Prop where
  requests : c'.requests = c.requests ++ List.replicate count request
  replies : c'.replies = c.replies.drop count

/-- One request more, and then others. -/
theorem Sent.next {c c' c'' : Client} {request : Request} {count : Nat} (h : Sent c c' request 1)
    (h' : Sent c' c'' request count) : Sent c c'' request (count + 1) where
  requests := by
    rw [h'.requests, h.requests, List.append_assoc, List.replicate_append_replicate, Nat.add_comm]
  replies := by
    rw [h'.replies, h.replies, List.drop_drop, Nat.add_comm]

variable (what : String) (address : Address) (method : Method) (body : String) (limit : Nat)

/-- An attempt sends one request and is judged by the next reply; one that is missing is
silence. -/
theorem ask_eq (c : Client) (level : LogLevel) (text : String) :
    ∃ c', Sent c c' ⟨method, address.target, body⟩ 1 ∧
      (c.log level text).ask (.ok address) method body =
        ((c.replies.headD .silence).outcome address.text, c') := by
  cases c with
  | mk base retry replies requests logs =>
    cases replies with
    | nil => exact ⟨_, ⟨rfl, rfl⟩, rfl⟩
    | cons reply replies => exact ⟨_, ⟨rfl, rfl⟩, rfl⟩

/-- A reply that settles the call ends the attempts, however many are left. -/
theorem attempt_settled {c : Client} (left : Nat) (h : (c.replies.headD .silence).settles = true)
    (hwhole : (c.replies.headD .silence).isWhole = true) :
    Sent c (attempt what (.ok address) method body limit left c).2
        ⟨method, address.target, body⟩ 1 ∧
      Verdict (some (c.replies.headD .silence))
        (attempt what (.ok address) method body limit left c).1 := by
  obtain ⟨c', hsent, hask⟩ := ask_eq address method body c .debug
    (what ++ " attempt " ++ toString (limit - left) ++ "/" ++ toString limit)
  unfold attempt
  by_cases hsucceeds : (c.replies.headD .silence).succeeds = true
  · rw [Reply.outcome_of_succeeds address.text hsucceeds hwhole] at hask
    simp only [hask]
    exact ⟨hsent, .answered hsucceeds⟩
  · have hfails := Bool.eq_false_iff.mpr hsucceeds
    obtain ⟨failure, houtcome, hlasting⟩ := Reply.outcome_of_fails address.text h hfails
    rw [houtcome] at hask
    simp only [hask, hlasting, Bool.not_false, if_true]
    exact ⟨hsent, .refused hfails _⟩

/-- The last attempt is lost if its reply does not settle the call. -/
theorem attempt_last {c : Client} (h : (c.replies.headD .silence).settles = false) :
    Sent c (attempt what (.ok address) method body limit 0 c).2
        ⟨method, address.target, body⟩ 1 ∧
      Verdict none (attempt what (.ok address) method body limit 0 c).1 := by
  obtain ⟨c', hsent, hask⟩ := ask_eq address method body c .debug
    (what ++ " attempt " ++ toString (limit - 0) ++ "/" ++ toString limit)
  obtain ⟨failure, houtcome, htransient⟩ := Reply.outcome_of_not_settles address.text h
  rw [houtcome] at hask
  unfold attempt
  simp only [hask, htransient, Bool.not_true, Bool.false_eq_true, if_false]
  exact ⟨hsent, .unsettled _⟩

/-- Any other attempt that is not settled is followed by those that are left. -/
theorem attempt_again {c : Client} (left : Nat)
    (h : (c.replies.headD .silence).settles = false) :
    ∃ c', Sent c c' ⟨method, address.target, body⟩ 1 ∧
      attempt what (.ok address) method body limit (left + 1) c =
        attempt what (.ok address) method body limit left c' := by
  obtain ⟨c', hsent, hask⟩ := ask_eq address method body c .debug
    (what ++ " attempt " ++ toString (limit - (left + 1)) ++ "/" ++ toString limit)
  obtain ⟨failure, houtcome, htransient⟩ := Reply.outcome_of_not_settles address.text h
  rw [houtcome] at hask
  rw [attempt]
  simp only [hask, htransient, Bool.not_true, Bool.false_eq_true, if_false]
  refine ⟨_, ?_, rfl⟩
  exact ⟨hsent.requests, hsent.replies⟩

/-- The next reply is a whole one if all are. -/
theorem isWhole_next {replies : List Reply} (h : ∀ reply ∈ replies, reply.isWhole = true) :
    (replies.headD .silence).isWhole = true := by
  cases replies with
  | nil => rfl
  | cons reply replies => exact h reply List.mem_cons_self

/-- **Attempts follow one another until one is settled** or none is left. -/
theorem attempt_exact : ∀ (left : Nat) (c : Client),
    (∀ reply ∈ c.replies, reply.isWhole = true) →
      Sent c (attempt what (.ok address) method body limit left c).2
          ⟨method, address.target, body⟩ (requestsNeeded (left + 1) c.replies) ∧
        Verdict (settling (left + 1) c.replies)
          (attempt what (.ok address) method body limit left c).1 := by
  intro left
  induction left with
  | zero =>
    intro c hwhole
    rw [requestsNeeded_succ, settling_succ]
    by_cases hsettles : (c.replies.headD .silence).settles = true
    · rw [if_pos hsettles, if_pos hsettles]
      exact attempt_settled what address method body limit 0 hsettles (isWhole_next hwhole)
    · rw [if_neg hsettles, if_neg hsettles, requestsNeeded_zero]
      exact attempt_last what address method body limit (Bool.eq_false_iff.mpr hsettles)
  | succ left ih =>
    intro c hwhole
    rw [requestsNeeded_succ, settling_succ]
    by_cases hsettles : (c.replies.headD .silence).settles = true
    · rw [if_pos hsettles, if_pos hsettles]
      exact attempt_settled what address method body limit _ hsettles (isWhole_next hwhole)
    · rw [if_neg hsettles, if_neg hsettles]
      obtain ⟨c', hsent, hagain⟩ :=
        attempt_again what address method body limit left (Bool.eq_false_iff.mpr hsettles)
      have htail : c'.replies = c.replies.tail := hsent.replies.trans List.drop_one
      obtain ⟨hrest, hverdict⟩ := ih c' fun reply hr =>
        hwhole reply (List.mem_of_mem_tail (htail ▸ hr))
      rw [htail] at hrest hverdict
      rw [hagain]
      exact ⟨hsent.next hrest, hverdict⟩

theorem destination_transient {text : String} {failure : Failure}
    (h : destination text = .error failure) : failure.transient = true := by
  unfold destination at h
  split at h
  · cases h
    rfl
  · split at h <;> cases h
    rfl

/-- Without a destination nothing is sent, however often it is attempted. -/
theorem attempt_nowhere (failure : Failure) (htransient : failure.transient = true) :
    ∀ (left : Nat) (c : Client),
      (attempt what (.error failure) method body limit left c).2.requests = c.requests ∧
        ∃ reason, (attempt what (.error failure) method body limit left c).1 =
          .error (.transport reason) := by
  intro left
  induction left with
  | zero =>
    intro c
    unfold attempt ask
    simp only [htransient, Bool.not_true, Bool.false_eq_true, if_false]
    exact ⟨rfl, _, rfl⟩
  | succ left ih =>
    intro c
    rw [attempt]
    unfold ask
    simp only [htransient, Bool.not_true, Bool.false_eq_true, if_false]
    obtain ⟨hrequests, hresult⟩ := ih _
    exact ⟨hrequests.trans rfl, hresult⟩

end Client

/-! ### Calls -/

/-- A call of the service, by what it gives. -/
inductive Operation : Type → Type where
  | openSession (request : SessionRequest) : Operation (Opening Float)
  | submit (session : SessionId) (orders : List (Order Float)) : Operation Unit
  | nextStep (session : SessionId) : Operation (StepReply Float)
  | sessionInfo (session : SessionId) : Operation SessionInfo
  | datasetSpan : Operation DatasetSpan
  | clock (session : SessionId) : Operation Clock

namespace Operation

variable {β : Type}

def run : Operation β → Client → Except ServiceFault β × Client
  | .openSession request, c => Service.openSession request c
  | .submit session orders, c => Service.submit session orders c
  | .nextStep session, c => Service.nextStep session c
  | .sessionInfo session, c => Service.sessionInfo session c
  | .datasetSpan, c => Service.datasetSpan c
  | .clock session, c => Service.clock session c

def path : Operation β → String
  | .openSession (.dataset name) => "/init/" ++ name
  | .openSession (.range _ _ _) => "/init"
  | .submit session _ => Client.sessionPath session "insert_orders"
  | .nextStep session => Client.sessionPath session "tick"
  | .sessionInfo session => Client.sessionPath session "info"
  | .datasetSpan => "/dataset/info"
  | .clock session => Client.sessionPath session "now"

def method : Operation β → Method
  | .openSession (.range _ _ _) | .submit _ _ => .post
  | _ => .get

def body : Operation β → String
  | .openSession (.range first last frequency) =>
    (SessionRequest.range first last frequency).toJson.render
  | .submit _ orders => (submissionJson orders).render
  | _ => ""

/-- Whether a call may be attempted again. Opening a session and asking for a step never are,
and a submission is only if the policy says so. -/
def mayRepeat (policy : RetryPolicy Float) : Operation β → Bool
  | .openSession _ | .nextStep _ => false
  | .submit _ _ => policy.retrySubmissions
  | .sessionInfo _ | .datasetSpan | .clock _ => true

/-- How often a call is attempted at most. -/
def limit (policy : RetryPolicy Float) (op : Operation β) : Nat :=
  if op.mayRepeat policy then max policy.maxAttempts 1 else 1

/-- What the text of a success gives; a submission takes no account of it. -/
def reads : Operation β → String → Option β
  | .openSession _, text => (Wire.parse Wire.readOpening text).toOption
  | .submit _ _, _ => some ()
  | .nextStep _, text => (Wire.parse Wire.readStepReply text).toOption
  | .sessionInfo _, text => (Wire.parse Wire.readInfo text).toOption
  | .datasetSpan, text => (Wire.parse Wire.readSpan text).toOption
  | .clock _, text => (Wire.parse Wire.readClock text).toOption

theorem limit_pos (op : Operation β) (policy : RetryPolicy Float) :
    op.limit policy - 1 + 1 = op.limit policy := by
  unfold limit
  split <;> omega

/-- What a call makes of its requests: a failure is passed on, and the text of a success is
read. -/
inductive Concludes (op : Operation β) :
    Except ServiceFault (Option String) → Except ServiceFault β → Prop
  | fault (fault : ServiceFault) : op.Concludes (.error fault) (.error fault)
  | read {text : String} {b : β} (h : op.reads text = some b) :
    op.Concludes (.ok (some text)) (.ok b)
  | unread {text : String} (h : op.reads text = none) (reason : String) :
    op.Concludes (.ok (some text)) (.error (.protocol reason))
  | cut (result : Except ServiceFault β) : op.Concludes (.ok none) result

/-- The text of an answer is read as the message that it should be. -/
theorem concludes_decode (op : Operation β) (read : Wire.Reader β)
    (hreads : ∀ text, op.reads text = (Wire.parse read text).toOption) (path : String) :
    ∀ answer : Option String, op.Concludes (.ok answer) (Client.decode path read answer)
  | none => .cut _
  | some text => by
    have htext := hreads text
    unfold Client.decode
    simp only
    cases hparse : Wire.parse read text with
    | ok b =>
      rw [hparse] at htext
      exact .read htext
    | error fault =>
      rw [hparse] at htext
      exact .unread htext _

/-- A question is sent and its answer read. -/
theorem concludes_query (op : Operation β) (read : Wire.Reader β)
    (hreads : ∀ text, op.reads text = (Wire.parse read text).toOption) (c : Client)
    (hrun : op.run c = c.query op.path (op.mayRepeat c.retry) op.method op.body read) :
    (op.run c).2 = (c.send op.path (op.mayRepeat c.retry) op.method op.body).2 ∧
      op.Concludes (c.send op.path (op.mayRepeat c.retry) op.method op.body).1 (op.run c).1 := by
  rw [hrun]
  unfold Client.query
  rcases c.send op.path (op.mayRepeat c.retry) op.method op.body with ⟨fault | answer, c'⟩
  · exact ⟨rfl, .fault fault⟩
  · exact ⟨rfl, concludes_decode op read hreads op.path answer⟩

/-- The answer to a submission is of no account. -/
theorem concludes_submit (session : SessionId) (orders : List (Order Float))
    (sent : Except ServiceFault (Option String) × Client) :
    let done : Except ServiceFault Unit × Client := match sent with
      | (.error fault, c) => (.error fault, c)
      | (.ok _, c) => (.ok (), c)
    done.2 = sent.2 ∧ (submit session orders).Concludes sent.1 done.1 := by
  rcases sent with ⟨fault | answer, c⟩
  · exact ⟨rfl, .fault fault⟩
  · cases answer with
    | none => exact ⟨rfl, .cut _⟩
    | some text => exact ⟨rfl, .read rfl⟩

/-- The path, method, body and limit of a call are what it sends. -/
theorem run_send (op : Operation β) (c : Client) : ∃ c₀ : Client, c₀.requests = c.requests ∧
    c₀.replies = c.replies ∧ c₀.base = c.base ∧ c₀.retry = c.retry ∧
    (op.run c).2 = (c₀.send op.path (op.mayRepeat c.retry) op.method op.body).2 ∧
    op.Concludes (c₀.send op.path (op.mayRepeat c.retry) op.method op.body).1 (op.run c).1 := by
  cases op with
  | openSession request =>
    have hrun : (openSession request).run c = c.query (openSession request).path false
        (openSession request).method (openSession request).body Wire.readOpening := by
      show Client.openSession request c = _
      unfold Client.openSession
      cases request <;> simp only [path, method, body]
    exact ⟨c, rfl, rfl, rfl, rfl,
      concludes_query _ Wire.readOpening (fun _ => rfl) c hrun⟩
  | submit session orders =>
    refine ⟨c.log .debug ("submitting " ++ toString orders.length ++ " orders to " ++
      Client.sessionPath session "insert_orders"), rfl, rfl, rfl, rfl, ?_⟩
    show (Client.submit session orders c).2 = _ ∧ Concludes _ _ (Client.submit session orders c).1
    have hretry : ∀ level text, (c.log level text).retry = c.retry := fun _ _ => rfl
    unfold Client.submit
    simp only [path, method, body, mayRepeat, hretry]
    generalize Client.send _ _ _ _ _ = sent
    exact concludes_submit session orders sent
  | nextStep session =>
    exact ⟨c, rfl, rfl, rfl, rfl,
      concludes_query _ Wire.readStepReply (fun _ => rfl) c rfl⟩
  | sessionInfo session =>
    exact ⟨c, rfl, rfl, rfl, rfl, concludes_query _ Wire.readInfo (fun _ => rfl) c rfl⟩
  | datasetSpan =>
    exact ⟨c, rfl, rfl, rfl, rfl, concludes_query _ Wire.readSpan (fun _ => rfl) c rfl⟩
  | clock session =>
    exact ⟨c, rfl, rfl, rfl, rfl, concludes_query _ Wire.readClock (fun _ => rfl) c rfl⟩

/-- A call attempts its request up to its limit. -/
theorem send_eq (op : Operation β) {c : Client} (c₀ : Client) (hretry : c₀.retry = c.retry) :
    c₀.send op.path (op.mayRepeat c.retry) op.method op.body =
      Client.attempt op.path (Client.destination (c₀.base ++ op.path)) op.method op.body
        (op.limit c.retry) (op.limit c.retry - 1) c₀ := by
  unfold Client.send limit
  rw [hretry]

/-- What a call comes to, by the reply that settles it within its limit. -/
inductive Outcome (op : Operation β) : Option Reply → Except ServiceFault β → Prop
  | unsettled (reason : String) : op.Outcome none (.error (.transport reason))
  | read {reply : Reply} {b : β} (hsucceeds : reply.succeeds = true)
    (h : op.reads reply.text = some b) : op.Outcome (some reply) (.ok b)
  | unread {reply : Reply} (hsucceeds : reply.succeeds = true) (h : op.reads reply.text = none)
    (reason : String) : op.Outcome (some reply) (.error (.protocol reason))
  | refused {reply : Reply} (hfails : reply.succeeds = false) (reason : String) :
    op.Outcome (some reply) (.error (.protocol reason))

theorem outcome_of_verdict {op : Operation β} {reply : Option Reply}
    {sent : Except ServiceFault (Option String)} {result : Except ServiceFault β}
    (hverdict : Verdict reply sent) (hconcludes : op.Concludes sent result) :
    op.Outcome reply result := by
  cases hverdict with
  | unsettled reason =>
    cases hconcludes with
    | fault => exact .unsettled reason
  | answered hsucceeds =>
    cases hconcludes with
    | read h => exact .read hsucceeds h
    | unread h reason => exact .unread hsucceeds h reason
  | refused hfails reason =>
    cases hconcludes with
    | fault => exact .refused hfails reason

/-- **The requests of a call are exact.** With somewhere to send them, they are as many as there
are replies up to the first that settles the call, or as its limit allows if these are fewer,
and all alike. The call succeeds if and only if a success settles it within the limit and its
text is read; it has failed on the way if and only if nothing settles it within the limit; and
it has failed for good if and only if what settles it is no success or is not read. Without
anywhere to send them, there are no requests, and the call has failed on the way. -/
theorem run_exact (op : Operation β) (c : Client)
    (hwhole : ∀ reply ∈ c.replies, reply.isWhole = true) :
    (∀ address, Client.destination (c.base ++ op.path) = .ok address →
      let settled := settling (op.limit c.retry) c.replies
      (op.run c).2.requests = c.requests ++
        List.replicate (requestsNeeded (op.limit c.retry) c.replies)
          ⟨op.method, address.target, op.body⟩ ∧
      (∀ b, (op.run c).1 = .ok b ↔ ∃ reply, settled = some reply ∧ reply.succeeds = true ∧
        op.reads reply.text = some b) ∧
      ((∃ reason, (op.run c).1 = .error (.transport reason)) ↔ settled = none) ∧
      ((∃ reason, (op.run c).1 = .error (.protocol reason)) ↔ ∃ reply, settled = some reply ∧
        (reply.succeeds = false ∨ op.reads reply.text = none))) ∧
    (∀ failure, Client.destination (c.base ++ op.path) = .error failure →
      (op.run c).2.requests = c.requests ∧
        ∃ reason, (op.run c).1 = .error (.transport reason)) := by
  obtain ⟨c₀, hrequests, hreplies, hbase, hretry, hclient, hconcludes⟩ := op.run_send c
  rw [op.send_eq c₀ hretry, hbase] at hclient hconcludes
  rw [hclient]
  refine ⟨fun address hdestination => ?_, fun failure hdestination => ?_⟩
  · rw [hdestination] at hconcludes ⊢
    obtain ⟨hsent, hverdict⟩ := Client.attempt_exact op.path address op.method op.body
      (op.limit c.retry) (op.limit c.retry - 1) c₀ (hreplies ▸ hwhole)
    rw [op.limit_pos, hreplies] at hverdict hsent
    have houtcome := outcome_of_verdict hverdict hconcludes
    refine ⟨hsent.requests.trans (by rw [hrequests]), ?_⟩
    generalize (op.run c).1 = result at houtcome
    generalize settling (op.limit c.retry) c.replies = settled at houtcome
    cases houtcome <;> simp_all
  · rw [hdestination] at hconcludes ⊢
    obtain ⟨hnone, reason, hresult⟩ := Client.attempt_nowhere op.path op.method op.body
      (op.limit c.retry) failure (Client.destination_transient hdestination)
      (op.limit c.retry - 1) c₀
    rw [hresult] at hconcludes
    refine ⟨hnone.trans hrequests, reason, ?_⟩
    generalize (op.run c).1 = result at hconcludes
    cases hconcludes
    rfl

/-- A client whose first request finds no answer and whose second meets a gateway that fails. -/
def sampleClient : Client :=
  ⟨"http://h", .standard, [.silence, .answer 503 "" true, .answer 200 "" true, .silence], [], []⟩

def sampleBatch : Operation Unit :=
  .submit ⟨0⟩ []

def sampleAddress : Address :=
  ⟨"http", "", .name "h", none, "/backtest/0/insert_orders", none, none⟩

theorem destination_sample :
    Client.destination (sampleClient.base ++ sampleBatch.path) = .ok sampleAddress := by
  have haddress : Address.ofText? (sampleClient.base ++ sampleBatch.path) = some sampleAddress := by
    decide +kernel
  have hhost : sampleAddress.host.text = "h" := rfl
  have hsendable : sampleAddress.isSendable = true := by
    unfold Address.isSendable
    rw [hhost, String.any, String.contains_bool_eq]
    decide +kernel
  unfold Client.destination
  simp only [haddress, hsendable, if_true]

/-- Three requests are sent, the third of which is answered. -/
theorem sample_run_exact : (sampleBatch.run sampleClient).1 = .ok () ∧
    (sampleBatch.run sampleClient).2.requests = List.replicate 3
      ⟨.post, "/backtest/0/insert_orders", sampleBatch.body⟩ := by
  obtain ⟨hsent, -⟩ := run_exact sampleBatch sampleClient (by decide)
  obtain ⟨hrequests, hread, -⟩ := hsent sampleAddress destination_sample
  have hok := (hread ()).mpr ⟨.answer 200 "" true, by decide, rfl, rfl⟩
  refine ⟨hok, hrequests.trans ?_⟩
  decide +kernel

end Operation

end Http
end Brokerage
