/-
# The market that a broker shows

A broker takes over the market of a response as a whole: quotes, depth and, where it is
told, the time. It begins with the market of the opening. Each step that comes is in
progress until a tick gets to its end (`Standing`), and only then is its market taken
over, unless it is the last step: a tick that stops at an item, gets no step or ends the
session leaves the market as it is (`Broker.tick_market`). So in every state the market is
that of the last response whose items are settled, and the clock is the latest time that
was told up to there (`Coherent.operated`).

What a step shows is what its reply tells (`StepReply.Tells`), and a time that is not told is
the greatest of the quote dates (`latest_latestDate`).

Key definitions: `Snapshot`, `Latest`, `Dated`, `StepReply.Tells`, `Broker.Displays`, `Standing`,
`Coherent`, `Broker.beginning`, `Broker.dropping`.
Key theorems: `latest_latestDate`, `StepReply.tells_of_check`, `Broker.tick_market`,
`Broker.replies_of_answers`, `Coherent.tick`, `Coherent.operated`,
`Broker.market_of_last_settled`.
-/
import Brokerage.Proofs.Discipline
import Brokerage.Proofs.History

namespace Brokerage

variable {σ α : Type} [Amount α]

/-- The market of one response. -/
structure Snapshot (α : Type) where
  quotes : Quotes α
  depths : Depths α
  time : Option Timestamp

/-- The time of an opening is its latest quote. -/
def Opening.snapshot (o : Opening α) : Snapshot α :=
  ⟨o.quotes, o.depths, latestDate o.quotes⟩

def Step.snapshot (s : Step α) : Snapshot α :=
  ⟨s.quotes, s.depths, s.time⟩

/-! ### The time of a snapshot -/

theorem le_later_left (s t : Timestamp) : s ≤ later s t := by
  unfold later
  split
  · assumption
  · exact Int64.le_refl s

theorem le_later_right (s t : Timestamp) : t ≤ later s t := by
  unfold later
  split
  · exact Int64.le_refl t
  · rename_i h
    exact (Int64.le_total s t).resolve_left h

theorem later_cases (s t : Timestamp) : later s t = s ∨ later s t = t := by
  unfold later
  split
  · exact .inr rfl
  · exact .inl rfl

omit [Amount α] in
/-- No date that is walked is after the latest, and the latest is one of them or the first
one. -/
theorem foldl_later : ∀ (entries : List (Symbol × Quote α)) (first : Timestamp),
    let latest := entries.foldl (fun t e => later t e.2.date) first
    first ≤ latest ∧ (∀ entry ∈ entries, entry.2.date ≤ latest) ∧
      (latest = first ∨ ∃ entry ∈ entries, entry.2.date = latest)
  | [], first => ⟨Int64.le_refl first, fun _ hmem => (by cases hmem), .inl rfl⟩
  | entry :: entries, first => by
    obtain ⟨hfirst, hrest, hreached⟩ := foldl_later entries (later first entry.2.date)
    refine ⟨Int64.le_trans (le_later_left first _) hfirst, fun other hmem => ?_, ?_⟩
    · rcases List.mem_cons.mp hmem with rfl | hmem
      · exact Int64.le_trans (le_later_right first _) hfirst
      · exact hrest other hmem
    · rcases hreached with hsame | ⟨other, hmem, hdate⟩
      · rcases later_cases first entry.2.date with hold | hnew
        · exact .inl (hsame.trans hold)
        · exact .inr ⟨entry, List.mem_cons_self, (hsame.trans hnew).symm⟩
      · exact .inr ⟨other, List.mem_cons_of_mem _ hmem, hdate⟩

/-- The time is the greatest of the dates of the quotes; there is none without quotes. -/
def Latest (quotes : Quotes α) : Option Timestamp → Prop
  | none => quotes.entries = []
  | some time => (∃ entry ∈ quotes.entries, entry.2.date = time) ∧
    ∀ entry ∈ quotes.entries, entry.2.date ≤ time

omit [Amount α] in
/-- **The latest date of some quotes is the greatest.** -/
theorem latest_latestDate (quotes : Quotes α) : Latest quotes (latestDate quotes) := by
  unfold latestDate Latest
  cases hentries : quotes.entries with
  | nil => rfl
  | cons first rest =>
    obtain ⟨hfirst, hrest, hreached⟩ := foldl_later rest first.2.date
    refine ⟨?_, List.forall_mem_cons.mpr ⟨hfirst, hrest⟩⟩
    rcases hreached with hsame | ⟨entry, hmem, hdate⟩
    · exact ⟨first, List.mem_cons_self, hsame.symm⟩
    · exact ⟨entry, List.mem_cons_of_mem _ hmem, hdate⟩

/-- The time of a snapshot is the one that it is told with, or else its latest date. -/
def Dated (now : Option Timestamp) (quotes : Quotes α) (time : Option Timestamp) : Prop :=
  match now with
  | some told => time = some told
  | none => Latest quotes time

/-- The reply is well-formed, and the step is what it tells. -/
structure StepReply.Tells (reply : StepReply α) (step : Step α) : Prop where
  sound : ¬ reply.Defective
  hasNext : step.hasNext = reply.hasNext
  executed : step.executed = reply.executed
  inserted : step.inserted.map Placement.ofOrder = reply.inserted
  quotes : step.quotes = reply.quotes
  depths : step.depths = reply.depths
  time : Dated reply.now reply.quotes step.time

theorem StepReply.tells_of_check {reply : StepReply α} {step : Step α}
    (h : reply.check = .ok step) : reply.Tells step := by
  obtain ⟨-, hinserted, hstep⟩ := check_ok h
  have htime : Dated reply.now reply.quotes reply.time := by
    unfold Dated StepReply.time
    cases reply.now with
    | none => exact latest_latestDate reply.quotes
    | some told => rfl
  constructor
  · intro hdefective
    obtain ⟨defect, hdefect⟩ := reply.check_error_iff.mpr hdefective
    rw [h] at hdefect
    cases hdefect
  · rw [hstep]
  · rw [hstep]
  · exact hinserted.symm
  · rw [hstep]
  · rw [hstep]
  · rw [hstep]
    exact htime

namespace Step

/-- The snapshots that are taken over, the opening first: all but that of a last step. -/
def adopted (opening : Snapshot α) (settled : List (Step α)) : List (Snapshot α) :=
  opening :: (settled.filter (·.hasNext)).map snapshot

theorem adopted_last (opening : Snapshot α) (settled : List (Step α)) {step : Step α}
    (h : step.hasNext = false) : adopted opening (settled ++ [step]) = adopted opening settled := by
  unfold adopted
  rw [List.filter_append, List.filter_cons_of_neg (by rw [h]; exact Bool.false_ne_true),
    List.filter_nil, List.append_nil]

theorem adopted_next (opening : Snapshot α) (settled : List (Step α)) {step : Step α}
    (h : step.hasNext = true) :
    adopted opening (settled ++ [step]) = adopted opening settled ++ [step.snapshot] := by
  unfold adopted
  rw [List.filter_append, List.filter_cons_of_pos h, List.filter_nil, List.map_append]
  rfl

end Step

/-- Of the steps that were begun the last may be in progress; the others are settled. The
items that are done are those of the settled steps and the first items of the one in
progress; `due` is what is left of that. -/
inductive Standing (begun : List (Step α)) (done : List (StepItem α)) :
    Option (Step α) → List (Step α) → Prop
  | between (hdone : done = begun.flatMap Step.items) : Standing begun done none begun
  | within (settled : List (Step α)) (step : Step α) (first rest : List (StepItem α))
    (hbegun : begun = settled ++ [step]) (hdone : done = settled.flatMap Step.items ++ first)
    (hitems : step.items = first ++ rest) :
    Standing begun done (some (step.keeping rest)) settled

namespace Standing

variable {begun settled : List (Step α)} {done : List (StepItem α)}

/-- A step is begun with all its items to be done. -/
theorem begin (h : Standing begun done none settled) (step : Step α) :
    Standing (begun ++ [step]) done (some step) settled := by
  cases h with
  | between hdone =>
    have hnew : Standing (begun ++ [step]) done (some (step.keeping step.items)) begun :=
      .within begun step [] step.items rfl (hdone.trans (List.append_nil _).symm) rfl
    rwa [step.keeping_items] at hnew

/-- Some more items are done. -/
theorem go_on {step : Step α} (h : Standing begun done (some step) settled)
    {more rest : List (StepItem α)} (hitems : step.items = more ++ rest) :
    Standing begun (done ++ more) (some (step.keeping rest)) settled := by
  cases h with
  | within settled full first left hbegun hdone hfull =>
    have hleft : (full.keeping left).items = left :=
      Step.items_keeping (hfull ▸ List.sublist_append_right first left)
    rw [hleft] at hitems
    rw [hitems, ← List.append_assoc] at hfull
    exact within settled full (first ++ more) rest hbegun
      (by rw [hdone, List.append_assoc]) hfull

/-- The rest is done, and the step is settled. -/
theorem settle {step : Step α} (h : Standing begun done (some step) settled) :
    Standing begun (done ++ step.items) none begun ∧ ∃ full, begun = settled ++ [full] ∧
      full.hasNext = step.hasNext ∧ full.snapshot = step.snapshot := by
  cases h with
  | within settled full first left hbegun hdone hfull =>
    have hleft : (full.keeping left).items = left :=
      Step.items_keeping (hfull ▸ List.sublist_append_right first left)
    refine ⟨.between ?_, full, hbegun, rfl, rfl⟩
    rw [hleft, hdone, hbegun, List.flatMap_append, List.flatMap_singleton, hfull,
      List.append_assoc]

end Standing

namespace Broker

/-- The market that the broker shows, with the clock. -/
def market (b : Broker σ α) : Snapshot α :=
  ⟨b.quotes, b.depths, b.now⟩

/-- The quotes and the depth are those of the last snapshot, and the clock is the latest
time among the snapshots. -/
structure Displays (b : Broker σ α) (snapshots : List (Snapshot α)) : Prop where
  market : snapshots.getLast?.map (fun s => (s.quotes, s.depths)) = some (b.quotes, b.depths)
  now : b.now = (snapshots.filterMap (·.time)).getLast?

theorem Displays.of_market {b c : Broker σ α} {snapshots : List (Snapshot α)}
    (hb : b.Displays snapshots) (h : c.market = b.market) : c.Displays snapshots := by
  obtain ⟨hquotes, hdepths, hnow⟩ := Snapshot.mk.inj h
  constructor
  · rw [hquotes, hdepths]
    exact hb.market
  · rw [hnow]
    exact hb.now

/-- A snapshot without a time leaves the clock as it is. -/
theorem Displays.adopt {b c : Broker σ α} {snapshots : List (Snapshot α)}
    (hb : b.Displays snapshots) {s : Snapshot α}
    (h : c.market = ⟨s.quotes, s.depths, s.time <|> b.now⟩) : c.Displays (snapshots ++ [s]) := by
  obtain ⟨hquotes, hdepths, hnow⟩ := Snapshot.mk.inj h
  constructor
  · rw [List.getLast?_concat, hquotes, hdepths]
    rfl
  · rw [hnow, List.filterMap_append, hb.now]
    cases htime : s.time with
    | none =>
      rw [List.filterMap_cons_none htime, List.filterMap_nil, List.append_nil]
      rfl
    | some time =>
      rw [List.filterMap_cons_some htime, List.filterMap_nil, List.getLast?_concat]
      rfl

theorem feed_market {b c : Broker σ α} {items : List (StepItem α)}
    {stop : Option (Discrepancy α × List (StepItem α))} (h : feed takeItem b items = (c, stop)) :
    c.market = b.market := by
  have hframe := feed_frame h
  unfold market
  rw [hframe.quotes, hframe.depths, hframe.now]

section

variable [Service σ α]

/-- The steps that a call begins: those of the well-formed replies to it. -/
def beginning (b : Broker σ α) (call : Call α) : List (Step α) :=
  (b.stepAnswers call).filterMap fun answer => answer.toOption.bind fun reply =>
    reply.check.toOption

omit [Service σ α] in
/-- Well-formed replies, one for one and in order, are what steps are begun by. -/
theorem replies_of_answers : ∀ answers : List (Except ServiceFault (StepReply α)),
    ∃ replies : List (StepReply α), (replies.map .ok).Sublist answers ∧
      (∀ reply, reply ∈ replies ↔ .ok reply ∈ answers ∧ ¬ reply.Defective) ∧
      List.Forall₂ StepReply.Tells replies
        (answers.filterMap fun answer => answer.toOption.bind fun reply => reply.check.toOption)
  | [] => ⟨[], .slnil, fun reply => by simp, .nil⟩
  | .error fault :: answers => by
    obtain ⟨replies, hsub, hmem, htells⟩ := replies_of_answers answers
    exact ⟨replies, hsub.cons _, fun reply => by simp [hmem], htells⟩
  | .ok reply :: answers => by
    obtain ⟨replies, hsub, hmem, htells⟩ := replies_of_answers answers
    cases hcheck : reply.check with
    | error defect =>
      have hdefective : reply.Defective := reply.check_error_iff.mp ⟨defect, hcheck⟩
      refine ⟨replies, hsub.cons _, fun other => ?_, ?_⟩
      · rw [hmem, List.mem_cons, Except.ok.injEq]
        refine and_congr_left fun hsound => (or_iff_right fun hsame => ?_).symm
        exact hsound (hsame ▸ hdefective)
      · rwa [List.filterMap_cons_none (by exact congrArg Except.toOption hcheck)]
    | ok step =>
      have htold := StepReply.tells_of_check hcheck
      refine ⟨reply :: replies, hsub.cons_cons _, fun other => ?_, ?_⟩
      · rw [List.mem_cons, hmem, List.mem_cons, Except.ok.injEq, or_and_right]
        refine or_congr_left ⟨fun hsame => ⟨hsame, hsame ▸ htold.sound⟩, And.left⟩
      · rw [List.filterMap_cons_some (by exact congrArg Except.toOption hcheck)]
        exact .cons htold htells

/-- The item that a call drops, if there is one: the account cannot follow it. -/
def dropping (b : Broker σ α) : Call α → List (StepItem α)
  | .insert _ => []
  | .tick =>
    match b.due with
    | (.ok (step, _), c) => (stuck takeItem c step.items).toList
    | (.error _, _) => []

/-- The items that a call is done with. -/
def settling (b : Broker σ α) (call : Call α) : List (StepItem α) :=
  b.applying call ++ b.dropping call

theorem due_market (b : Broker σ α) : b.due.2.market = b.market :=
  b.due_keeps market (fun _ _ _ => rfl) (fun _ _ => rfl)

theorem stepAnswers_of_delivery {b : Broker σ α} (hactive : b.finished = false)
    (hfree : b.held = none) {reply : StepReply α} {s : σ} (h : b.delivery = (.ok reply, s)) :
    b.stepAnswers .tick = [.ok reply] := by
  obtain ⟨t, hsubmission, -⟩ := submission_of_delivery h
  unfold stepAnswers
  rcases asking_fresh hactive hfree with ⟨-, -, hasking⟩ | ⟨-, -, hasking⟩ | ⟨-, fault, hs, -⟩
  · rw [hasking, h]
    rfl
  · rw [hasking, h]
    rfl
  · rw [hsubmission] at hs
    cases hs

theorem beginning_of_delivery {b : Broker σ α} (hactive : b.finished = false)
    (hfree : b.held = none) {reply : StepReply α} {s : σ} (h : b.delivery = (.ok reply, s)) :
    b.beginning .tick = reply.check.toOption.toList := by
  unfold beginning
  rw [stepAnswers_of_delivery hactive hfree h]
  show List.filterMap _ [Except.ok reply] = _
  cases hcheck : reply.check with
  | error defect => rw [List.filterMap_cons_none (by exact congrArg Except.toOption hcheck)]; rfl
  | ok step => rw [List.filterMap_cons_some (by exact congrArg Except.toOption hcheck)]; rfl

theorem stepAnswers_of_held {b : Broker σ α} {step : Step α} (hheld : b.held = some step) :
    b.stepAnswers .tick = [] := by
  have hstale : (b.finished || b.held.isSome) = true := by
    rw [hheld]
    exact Bool.or_true _
  unfold stepAnswers
  rw [asking_stale hstale]
  rfl

theorem beginning_of_held {b : Broker σ α} {step : Step α} (hheld : b.held = some step) :
    b.beginning .tick = [] := by
  unfold beginning
  rw [stepAnswers_of_held hheld]
  rfl

/-- Where a tick gets no step, none has come that could be begun. -/
theorem beginning_of_no_step {b c : Broker σ α} {fault : BrokerFault α}
    (h : b.due = (.error fault, c)) : b.beginning .tick = [] := by
  rcases b.stepAnswers_tick with hnone | ⟨hactive, hfree, -, hanswer⟩
  · unfold beginning
    rw [hnone]
    rfl
  · rcases hd : b.delivery with ⟨cause | reply, s⟩
    · unfold beginning
      rw [hanswer, hd]
      rfl
    · have hdue := due_of_delivery hactive hfree hd
      rw [beginning_of_delivery hactive hfree hd]
      cases hcheck : reply.check with
      | error defect => rfl
      | ok step =>
        rw [h, hcheck] at hdue
        cases hdue

/-- The step that a tick has to apply: the one that is held, or that of the reply. -/
def Offered (b : Broker σ α) (step : Step α) : Prop :=
  b.held = some step ∨
    (b.held = none ∧ ∃ reply, b.stepAnswers .tick = [.ok reply] ∧ reply.check = .ok step)

theorem offered_of_due {b c : Broker σ α} {step : Step α} {report : TickReport α}
    (h : b.due = (.ok (step, report), c)) : b.Offered step := by
  rcases due_ok h with ⟨hactive, ⟨hheld, -, -⟩ | ⟨hfree, -, reply, s, hdelivery, hcheck, -⟩⟩
  · exact .inl hheld
  · exact .inr ⟨hfree, reply, stepAnswers_of_delivery hactive hfree hdelivery, hcheck⟩

/-- **What a tick does to the market.** It leaves the market as it is, or it gets to the
end of a step that is not the last and takes over quotes, depth and time; then nothing is
held, and if there is an error, it is a holding without a quote and no value is entered. -/
theorem tick_market (b : Broker σ α) :
    (b.tick.2.market = b.market ∧ ∀ symbol, b.tick.1 ≠ .error (.staleQuote symbol)) ∨
    ∃ step, b.Offered step ∧ step.hasNext = true ∧
      b.tick.2.market = ⟨step.quotes, step.depths, step.time <|> b.now⟩ ∧
      b.tick.2.held = none ∧ b.tick.2.finished = false ∧
      ∀ fault, b.tick.1 = .error fault →
        (∃ symbol, fault = .staleQuote symbol) ∧ b.tick.2.values = b.values := by
  have hmarket := b.due_market
  have hopen := b.due_keeps (fun b => (b.finished, b.values)) (fun _ _ _ => rfl) (fun _ _ => rfl)
  rw [tick_eq]
  rcases hd : b.due with ⟨fault | ⟨step, report⟩, c⟩
  · rw [hd] at hmarket
    refine .inl ⟨hmarket, fun symbol h => ?_⟩
    rcases due_error hd with ⟨-, rfl, -⟩ | ⟨-, -, s, -, hcause⟩
    · cases h
    · rcases hcause with ⟨cause, -, rfl⟩ | ⟨cause, t, -, -, rfl⟩ | ⟨reply, defect, -, -, rfl⟩
      · cases cause <;> cases h
      · cases cause <;> cases h
      · cases h
  · rw [hd] at hmarket hopen
    obtain ⟨hfinished, hvalues⟩ := Prod.mk.inj hopen
    simp only
    rcases c.applyStep_cases step report with ⟨done, i, rest, cause, d, -, hf, -, ha⟩ | ⟨d, hf, ha⟩
    · rw [ha]
      refine .inl ⟨(feed_market hf).trans hmarket, fun symbol h => ?_⟩
      cases cause <;> cases h
    · have hframe := feed_frame hf
      have hadopted : (d.adopt step).market = ⟨step.quotes, step.depths, step.time <|> b.now⟩ :=
        congrArg (fun now => (⟨step.quotes, step.depths, step.time <|> now⟩ : Snapshot α))
          (congrArg Snapshot.time ((feed_market hf).trans hmarket))
      have hheld : d.held = none := hframe.held.trans (due_held hd)
      rw [ha]
      rcases d.conclude_cases step _ with ⟨-, hc⟩ | ⟨hnext, symbol, -, hc⟩ | ⟨hnext, value, -, hc⟩
      · rw [hc]
        exact .inl ⟨(feed_market hf).trans hmarket, fun symbol h => by cases h⟩
      · rw [hc]
        cases hopened : b.finished with
        | true => rw [due_finished hopened] at hd; cases hd
        | false =>
          refine .inr ⟨step, offered_of_due hd, hnext, hadopted, hheld,
            hframe.finished.trans (hfinished.trans hopened), fun fault h => ?_⟩
          cases h
          exact ⟨⟨symbol, rfl⟩, hframe.values.trans hvalues⟩
      · rw [hc]
        cases hopened : b.finished with
        | true => rw [due_finished hopened] at hd; cases hd
        | false =>
          exact .inr ⟨step, offered_of_due hd, hnext, hadopted, hheld,
            hframe.finished.trans (hfinished.trans hopened), fun fault h => by cases h⟩

end

end Broker

/-! ### Every state -/

/-- The broker shows the market of the steps that are settled, of those that it has begun
and whose items are done, upon that of the opening. -/
def Coherent (opening : Snapshot α) (begun : List (Step α)) (done : List (StepItem α))
    (b : Broker σ α) : Prop :=
  ∃ settled, Standing begun done b.held settled ∧ b.Displays (Step.adopted opening settled)

namespace Coherent

open Broker

variable {opening : Snapshot α} {begun : List (Step α)} {done : List (StepItem α)}

theorem of_same {b c : Broker σ α} (hb : Coherent opening begun done b) (hheld : c.held = b.held)
    (hmarket : c.market = b.market) : Coherent opening begun done c := by
  obtain ⟨settled, hstanding, hshown⟩ := hb
  exact ⟨settled, by rw [hheld]; exact hstanding, hshown.of_market hmarket⟩

/-- A step that is due is applied up to an item that fails or to its end. -/
theorem applyStep {settled : List (Step α)} {b : Broker σ α} {step : Step α}
    (hstanding : Standing begun done (some step) settled)
    (hshown : b.Displays (Step.adopted opening settled)) (hfree : b.held = none)
    (report : TickReport α) :
    Coherent opening begun
      (done ++ (taken takeItem b step.items ++ (stuck takeItem b step.items).toList))
      (b.applyStep step report).2 := by
  rcases b.applyStep_cases step report with
    ⟨first, i, rest, cause, c, hitems, hf, hs, ha⟩ | ⟨c, hf, ha⟩
  · obtain ⟨htaken, hstuck⟩ := taken_stuck_stopped hf hs rest
    have hmarket : c.market = b.market := feed_market hf
    rw [ha, hitems, htaken, hstuck]
    refine ⟨settled, hstanding.go_on ?_, hshown.of_market hmarket⟩
    rw [hitems, List.append_assoc]
    rfl
  · obtain ⟨htaken, hstuck⟩ := taken_stuck_all hf
    obtain ⟨hsettled, full, rfl, hnext, hsnapshot⟩ := hstanding.settle
    have hmarket := feed_market hf
    have hnow : c.now = b.now := congrArg Snapshot.time hmarket
    have hended : ∀ {d : Broker σ α}, d.held = c.held →
        Standing (settled ++ [full]) (done ++ step.items) d.held (settled ++ [full]) := by
      intro d hd
      rw [hd, (feed_frame hf).held, hfree]
      exact hsettled
    have hadopted : (c.adopt step).market =
        ⟨full.snapshot.quotes, full.snapshot.depths, full.snapshot.time <|> b.now⟩ := by
      rw [hsnapshot, ← hnow]
      rfl
    rw [ha, htaken, hstuck, Option.toList_none, List.append_nil]
    rcases c.conclude_cases step _ with ⟨hlast, hc⟩ | ⟨hmore, symbol, -, hc⟩ | ⟨hmore, value, -, hc⟩
    · rw [hc]
      refine ⟨_, hended rfl, ?_⟩
      rw [Step.adopted_last opening settled (hnext.trans hlast)]
      exact hshown.of_market hmarket
    · rw [hc]
      refine ⟨_, hended rfl, ?_⟩
      rw [Step.adopted_next opening settled (hnext.trans hmore)]
      exact hshown.adopt hadopted
    · rw [hc]
      refine ⟨_, hended rfl, ?_⟩
      rw [Step.adopted_next opening settled (hnext.trans hmore)]
      exact hshown.adopt hadopted

variable [Service σ α]

/-- **Every tick keeps the market coherent.** -/
theorem tick {b : Broker σ α} (hb : Coherent opening begun done b) :
    Coherent opening (begun ++ b.beginning .tick) (done ++ b.settling .tick) b.tick.2 := by
  obtain ⟨settled, hstanding, hshown⟩ := hb
  have hmarket := b.due_market
  unfold settling applying dropping
  rw [tick_eq]
  rcases hd : b.due with ⟨fault | ⟨step, report⟩, c⟩
  · rw [hd] at hmarket
    rw [beginning_of_no_step hd, List.append_nil, List.append_nil, List.append_nil]
    have hheld : c.held = b.held := by
      rcases due_error hd with ⟨-, -, rfl⟩ | ⟨-, -, s, rfl, -⟩ <;> rfl
    exact of_same ⟨settled, hstanding, hshown⟩ hheld hmarket
  · rw [hd] at hmarket
    refine applyStep ?_ (hshown.of_market hmarket) (due_held hd) report
    rcases due_ok hd with ⟨hactive, ⟨hheld, -, -⟩ | ⟨hfree, -, reply, s, hdelivery, hcheck, -⟩⟩
    · rw [beginning_of_held hheld, List.append_nil, ← hheld]
      exact hstanding
    · rw [beginning_of_delivery hactive hfree hdelivery, hcheck]
      rw [hfree] at hstanding
      exact hstanding.begin step

theorem perform {b : Broker σ α} (hb : Coherent opening begun done b) : ∀ made : Call α,
    Coherent opening (begun ++ b.beginning made) (done ++ b.settling made) (b.perform made).2
  | .insert order => by
    rw [show b.beginning (.insert order) = [] from rfl,
      show b.settling (.insert order) = [] from rfl, List.append_nil, List.append_nil]
    rcases b.insert_eq order with h | h <;> unfold Broker.perform <;> rw [h] <;>
      exact hb.of_same rfl rfl
  | .tick => hb.tick

theorem operated (ops : List (Operation σ α)) {b : Broker σ α}
    (hb : Coherent opening begun done b) :
    Coherent opening (begun ++ collect beginning b ops) (done ++ collect settling b ops)
      (b.operated ops) :=
  operated_record (fun _ _ _ made hb => hb.perform made) (fun _ _ _ _ hb => hb.of_same rfl rfl)
    ops begun done hb

end Coherent

namespace Broker

/-- A session opens with the market that the service tells. -/
theorem connect_market [Service σ α] {setup : Setup α} {service : σ} {b : Broker σ α}
    (h : connect setup service = .ok b) : ∃ request opening s, setup.request = some request ∧
      Service.openSession request service = (.ok opening, s) ∧ b.market = opening.snapshot := by
  obtain ⟨-, request, opening, s, ⟨-, -, -, hrequest⟩, hopening, -, hquotes, hdepths, hnow⟩ :=
    connect_opened h
  refine ⟨request, opening, s, hrequest, hopening, ?_⟩
  unfold market Opening.snapshot
  rw [hquotes, hdepths, hnow]

/-- A snapshot that is the only one. -/
theorem Displays.first {b : Broker σ α} {s : Snapshot α} (h : b.market = s) :
    b.Displays [s] := by
  subst h
  constructor
  · rfl
  · unfold Broker.market
    cases b.now <;> rfl

/-- **The market of a broker is that of the last response that was settled.** In every
state that operations lead to there are the steps that are settled: they are all steps
that the well-formed replies have told, or all but the last, and then the rest of the last
is held; the items that were applied or dropped are theirs, and the first ones of the held
step. The quotes and the depth are those of the last settled step that is not a last step,
or those of the opening if there is none, and the clock is the latest time that the
opening or one of these steps has told. The steps are told one for one by the well-formed
replies, whose quotes, depth and time they have: the time that a reply tells, or else the
greatest date of its quotes, as for the opening.

A tick that fails leaves the market as it is, and so does one that leaves a step held,
gets a defective reply or ends the session. The one exception is a holding without a
quote: then the market of the step has been taken over, no value is entered, nothing is
held and the session goes on. -/
theorem market_of_last_settled [Service σ α] {setup : Setup α} {service : σ} {b : Broker σ α}
    (h : connect setup service = .ok b) (ops : List (Operation σ α)) :
    let c := b.operated ops
    (∃ request opening s settled, setup.request = some request ∧
      Service.openSession request service = (.ok opening, s) ∧
      Latest opening.quotes opening.snapshot.time ∧
      Standing (collect beginning b ops) (collect settling b ops) c.held settled ∧
      c.history = collect applying b ops ∧
      c.Displays (Step.adopted opening.snapshot settled)) ∧
    (∃ replies : List (StepReply α), (replies.map .ok).Sublist (collect stepAnswers b ops) ∧
      (∀ reply, reply ∈ replies ↔
        .ok reply ∈ collect stepAnswers b ops ∧ ¬ reply.Defective) ∧
      List.Forall₂ StepReply.Tells replies (collect beginning b ops)) ∧
    (∀ fault, c.tick.1 = .error fault → (∀ symbol, fault ≠ .staleQuote symbol) →
      c.tick.2.market = c.market) ∧
    (c.tick.2.held ≠ none → c.tick.2.market = c.market) ∧
    (∀ reply, c.stepAnswers .tick = [.ok reply] → reply.Defective →
      c.tick.2.market = c.market) ∧
    (c.tick.2.finished = true → c.tick.2.market = c.market) ∧
    (∀ symbol, c.tick.1 = .error (.staleQuote symbol) → ∃ step, c.Offered step ∧
      step.hasNext = true ∧ c.tick.2.market = ⟨step.quotes, step.depths, step.time <|> c.now⟩ ∧
      c.tick.2.values = c.values ∧ c.tick.2.held = none ∧ c.tick.2.finished = false) := by
  intro c
  obtain ⟨cash, -, -, -, -, hfree, -, -, -, now, hjournal⟩ := connect_ok h
  obtain ⟨request, opening, s, hrequest, hopening, hmarket⟩ := connect_market h
  have hstart : Coherent opening.snapshot [] [] b :=
    ⟨[], by rw [hfree]; exact .between rfl, .first hmarket⟩
  obtain ⟨settled, hstanding, hshown⟩ := hstart.operated ops
  have hhistory : c.history = collect applying b ops :=
    operated_record (P := fun xs (_ : List (StepItem α)) (b : Broker σ α) => b.history = xs)
      (f := applying) (g := applying) (fun xs _ b made hb => by rw [perform_history, hb])
      (fun _ _ _ _ hb => hb) ops [] [] (show b.history = [] by
        unfold history
        rw [hjournal]
        rfl)
  refine ⟨⟨request, opening, s, settled, hrequest, hopening, latest_latestDate opening.quotes,
    hstanding, hhistory, hshown⟩, ?_, ?_⟩
  · rw [show collect beginning b ops = _ from collect_filterMap stepAnswers _ ops b]
    exact replies_of_answers _
  rcases c.tick_market with ⟨hkept, hquoted⟩ |
    ⟨step, hoffered, hnext, hmarket, hended, hactive, hfault⟩
  · exact ⟨fun _ _ _ => hkept, fun _ => hkept, fun _ _ _ => hkept, fun _ => hkept,
      fun symbol hstale => absurd hstale (hquoted symbol)⟩
  · refine ⟨fun fault hfailed hother => ?_, fun hheld => absurd hended hheld,
      fun reply hreply hdefective => ?_, fun hfinished => ?_, fun symbol hstale => ?_⟩
    · obtain ⟨⟨symbol, hstale⟩, -⟩ := hfault fault hfailed
      exact absurd hstale (hother symbol)
    · obtain ⟨defect, hdefect⟩ := reply.check_error_iff.mpr hdefective
      rcases hoffered with hheld | ⟨-, other, hother, hcheck⟩
      · rw [stepAnswers_of_held hheld] at hreply
        cases hreply
      · rw [hreply] at hother
        cases hother
        rw [hdefect] at hcheck
        cases hcheck
    · rw [hactive] at hfinished
      cases hfinished
    · exact ⟨step, hoffered, hnext, hmarket, (hfault _ hstale).2, hended, hactive⟩

/-- The second tick drops the last item of the sample step. The step is still held, with
nothing left of it, and its market is not yet taken over. -/
theorem sample_market_of_last_settled :
    (∃ settled, Standing (collect beginning sampleBroker [.call .tick, .call .tick])
      (collect settling sampleBroker [.call .tick, .call .tick])
        (sampleBroker.operated [.call .tick, .call .tick]).held settled ∧
      (sampleBroker.operated [.call .tick, .call .tick]).Displays
        (Step.adopted ⟨sampleScenario.quotes, ∅, some 100⟩ settled)) ∧
    (sampleBroker.operated [.call .tick, .call .tick]).now = some 100 ∧
    (sampleBroker.operated [.call .tick, .call .tick, .call .tick]).now = some 101 := by
  obtain ⟨⟨request, opening, s, settled, hrequest, hopening, -, hstanding, -, hshown⟩, -⟩ :=
    market_of_last_settled connect_sample [.call .tick, .call .tick]
  cases hrequest
  have hsnapshot : opening.snapshot = ⟨sampleScenario.quotes, ∅, some 100⟩ := by
    cases hopening
    rfl
  rw [hsnapshot] at hshown
  exact ⟨⟨settled, hstanding, hshown⟩, by decide +kernel, by decide +kernel⟩

end Broker
end Brokerage
