import Mathlib.Data.List.Induction
import Velosearch.Cluster.Coordinator.Chores
import Velosearch.Cluster.Coordinator.Lives

/-!
# Shard reports are answered truthfully

A data node that reports a copy started, failed or stale acts on the answer: a primary
acknowledges a write on the strength of it. The event goes to one list, the reporter to
another, and a third field holds the publication in flight; an answer is sent when that
publication is committed.

`Heard` is what ties the three together at every moment: whoever waits has an event
that is still to be taken up, or one that the state in flight, or a decided one,
carries. A state carries an event if the node published it with the event before it,
while it handled an input of its life. **`reports_answered_truthfully`** is what follows
for everything a node ever puts out.
-/

set_option autoImplicit false

namespace Velosearch.Cluster

open Coordinator Relation

/-- At an input the node published `s`, made with `ev` before it, and the event waited
when the input came, or the input is the report of it. -/
structure Publishes (E : Env) (inp : Option Envelope) (queue : List ShardEvent)
    (marks : List Event) (s : ClusterState) (ev : ShardEvent) : Prop where
  waited : ev ∈ queue ∨ ∃ e kind, inp = some e ∧ ev.About kind e
  made : ∃ (look : Nat → Source) (c : Coordinator) (base s₀ : ClusterState),
    E.metadata = some look ∧ Round E c base s₀ s ∧ ev ∈ c.shardEvents ∧
      .published base s ∈ marks

/-- An input a node is at, with the events that waited when it came and what the states
published before carry. -/
structure Hand where
  env : Env
  report : Option Envelope
  queue : List ShardEvent
  carried : ClusterState → ShardEvent → Prop

/-- The event was waiting to be taken up, or came with the report. -/
def Hand.Waited (H : Hand) (ev : ShardEvent) : Prop :=
  ev ∈ H.queue ∨ ∃ e kind, H.report = some e ∧ ev.About kind e

/-- A state that takes the event up, now or in what is already published. -/
def Hand.Carries (H : Hand) (marks : List Event) (s : ClusterState) (ev : ShardEvent) : Prop :=
  H.carried s ev ∨ Publishes H.env H.report H.queue marks s ev

theorem Hand.Carries.mono {H : Hand} {marks marks' : List Event} {s : ClusterState}
    {ev : ShardEvent} (h : H.Carries marks s ev) (grows : marks ⊆ marks') :
    H.Carries marks' s ev := by
  refine h.imp_right fun takes => ⟨takes.waited, ?_⟩
  obtain ⟨look, c, base, s₀, store, made, queued, published⟩ := takes.made
  exact ⟨look, c, base, s₀, store, made, queued, grows published⟩

/-- The request an answer is to. -/
structure Answers (e : Envelope) (dest : NodeId) (requestId : Nat) : Prop where
  sender : e.sender = dest
  request : e.requestId = requestId

/-- An answer that is owed: to whom, and for which event. -/
def Awaits (H : Hand) (asked : List Envelope) (past : List Event) (d : Desk) (w : Waiting) :
    Prop :=
  ∃ e ∈ asked, Answers e w.dest w.requestId ∧ ∃ ev : ShardEvent, ev.About w.kind e ∧
    ((w.carriedAt = notCarried ∧ ev ∈ d.shardEvents ∧ H.Waited ev) ∨
      ∃ s, H.Carries d.marks s ev ∧ (d.inFlight = some s ∨ .decided s ∈ past ++ d.marks))

/-- Every answer that is owed is to a request that was heard, and a candidate owes none. -/
structure Heard (H : Hand) (asked : List Envelope) (past : List Event) (d : Desk) : Prop where
  awaits : ∀ w ∈ d.eventReplies, Awaits H asked past d w
  nobody : d.mode = .candidate → d.eventReplies = []

/-- The report was of a primary, as the routing has it. -/
def NamesPrimary (routing : RoutingTable) (e : Envelope) (r : Reply) : Prop :=
  Answers e r.dest r.requestId ∧ r.kind ≠ .started ∧ ∃ ev : ShardEvent, ev.About r.kind e ∧
    (routing.primary ev.index ev.shard).bind (·.allocationId) = some ev.allocationId

/-- The event of a report is in a state that was decided; `C` is what states carry. -/
def InDecided (C : ClusterState → ShardEvent → Prop) (asked : List Envelope) (past : List Event)
    (r : Reply) : Prop :=
  ∃ e ∈ asked, Answers e r.dest r.requestId ∧ ∃ ev : ShardEvent, ev.About r.kind e ∧
    ∃ s, C s ev ∧ .decided s ∈ past

section Chore

variable {H : Hand} {r : RoutingTable} {asked : List Envelope}
variable {past : List Event} {d d' : Desk} {w : Waiting}

theorem Awaits.mono (h : Awaits H asked past d w)
    (events : ∀ ev ∈ d.shardEvents, ev ∈ d'.shardEvents) (flight : d'.inFlight = d.inFlight)
    (grows : d.marks ⊆ d'.marks) : Awaits H asked past d' w := by
  obtain ⟨e, he, answers, ev, about, here | ⟨s, carries, there⟩⟩ := h
  · exact ⟨e, he, answers, ev, about, Or.inl ⟨here.1, events ev here.2.1, here.2.2⟩⟩
  · refine ⟨e, he, answers, ev, about, Or.inr ⟨s, carries.mono grows, ?_⟩⟩
    rw [flight]
    refine there.imp_right fun decided => ?_
    rcases List.mem_append.mp decided with decided | decided
    · exact List.mem_append_left _ decided
    · exact List.mem_append_right _ (grows decided)

theorem Awaits.decided (h : Awaits H asked past d w) (idle : d.inFlight = none)
    (taken : w.carriedAt ≠ notCarried) :
    InDecided (H.Carries d.marks) asked (past ++ d.marks) (w.reply true) := by
  obtain ⟨e, he, answers, ev, about, here | ⟨s, carries, there⟩⟩ := h
  · exact absurd here.1 taken
  · refine ⟨e, he, answers, ev, about, s, carries, there.resolve_left ?_⟩
    rw [idle]
    exact nofun

theorem Heard.same (h : Heard H asked past d) (events : d'.shardEvents = d.shardEvents)
    (replies : d'.eventReplies = d.eventReplies) (flight : d'.inFlight = d.inFlight)
    (marks : d'.marks = d.marks) (mode : d'.mode = .candidate → d.mode = .candidate) :
    Heard H asked past d' := by
  refine ⟨fun w hw => ?_, fun candidate => ?_⟩
  · rw [replies] at hw
    exact (h.awaits w hw).mono (fun ev hev => events ▸ hev) flight (marks ▸ List.Subset.refl _)
  · rw [replies]
    exact h.nobody (mode candidate)

theorem applyCommitted_same (d : Desk) (s : ClusterState) :
    (d.applyCommitted s).shardEvents = d.shardEvents ∧
      (d.applyCommitted s).eventReplies = d.eventReplies ∧
      (d.applyCommitted s).marks = d.marks ∧ (d.applyCommitted s).replies = d.replies ∧
      (d.applyCommitted s).commandTable = d.commandTable := by
  unfold Desk.applyCommitted
  dsimp only
  split
  · exact ⟨rfl, rfl, rfl, rfl, rfl⟩
  · split <;> exact ⟨rfl, rfl, rfl, rfl, rfl⟩

theorem Heard.round (h : Heard H asked past d) {c : Coordinator} {s₀ s base : ClusterState}
    (ms : List Event) (here : c.desk = { d with mode := .leader, marks := d.marks ++ ms })
    (idle : d.eventReplies ≠ [] → d.inFlight = none) (made : Round H.env c base s₀ s) :
    Heard H asked past ((c.place H.env s₀).1.desk.publish base s) := by
  have replies : c.eventReplies = d.eventReplies := congrArg Desk.eventReplies here
  have events : c.shardEvents = d.shardEvents := congrArg Desk.shardEvents here
  have marks : c.desk.marks = d.marks ++ ms := congrArg Desk.marks here
  have mode : c.mode = .leader := congrArg Desk.mode here
  have grows : d.marks ⊆ c.desk.marks ++ [.published base s] := by
    rw [marks]
    intro x hx
    simp only [List.mem_append]
    exact Or.inl (Or.inl hx)
  have later : ∀ x ∈ past ++ d.marks, x ∈ past ++ (c.desk.marks ++ [.published base s]) := by
    intro x hx
    rcases List.mem_append.mp hx with hx | hx
    · exact List.mem_append_left _ hx
    · exact List.mem_append_right _ (grows hx)
  cases store : H.env.metadata with
  | none =>
    -- nothing is looked at, and nothing taken up
    rw [place_none store]
    refine ⟨fun w hw => ?_, fun candidate => ?_⟩
    · have hw : w ∈ d.eventReplies := replies ▸ hw
      obtain ⟨e, he, answers, ev, about, waits⟩ := h.awaits w hw
      have queue : (c.desk.publish base s).shardEvents = d.shardEvents := events
      refine ⟨e, he, answers, ev, about,
        waits.imp (fun x => ⟨x.1, queue ▸ x.2.1, x.2.2⟩) ?_⟩
      rintro ⟨s', carries, flew | decided⟩
      · rw [idle (List.ne_nil_of_mem hw)] at flew
        exact absurd flew nofun
      · exact ⟨s', carries.mono grows, Or.inr (later _ decided)⟩
    · rw [show (c.desk.publish base s).mode = c.mode from rfl, mode] at candidate
      exact absurd candidate nofun
  | some look =>
    rw [desk_place store]
    refine ⟨fun w' hw' => ?_, fun candidate => ?_⟩
    · obtain ⟨w, hw, rfl⟩ := List.mem_map.mp hw'
      rw [replies] at hw
      obtain ⟨e, he, answers, ev, about, waits⟩ := h.awaits w hw
      have same : (if w.carriedAt = notCarried then { w with carriedAt := s₀.version } else w).kind =
          w.kind ∧ (if w.carriedAt = notCarried then { w with carriedAt := s₀.version }
            else w).dest = w.dest ∧ (if w.carriedAt = notCarried then
              { w with carriedAt := s₀.version } else w).requestId = w.requestId := by
        split <;> exact ⟨rfl, rfl, rfl⟩
      refine ⟨e, he, ?_, ev, ?_, Or.inr ?_⟩
      · rw [same.2.1, same.2.2]
        exact answers
      · rw [same.1]
        exact about
      · rcases waits with ⟨_, queued, waited⟩ | ⟨s', carries, flew | decided⟩
        · refine ⟨s, Or.inr ⟨waited, look, c, base, s₀, store, made, events.symm ▸ queued, ?_⟩,
            Or.inl rfl⟩
          exact List.mem_append_right _ List.mem_cons_self
        · rw [idle (List.ne_nil_of_mem hw)] at flew
          exact absurd flew nofun
        · exact ⟨s', carries.mono grows, Or.inr (later _ decided)⟩
    · have led : c.mode = .candidate := candidate
      rw [mode] at led
      exact absurd led nofun

/-- Why an answer was given as it was. -/
def Grounds (H : Hand) (asked : List Envelope) (past marks : List Event) (r : RoutingTable)
    (x : Reply) : Prop :=
  (∃ e, H.report = some e ∧ NamesPrimary r e x) ∨
    InDecided (H.Carries marks) asked (past ++ marks) x

theorem InDecided.mono {marks marks' : List Event} {x : Reply}
    (h : InDecided (H.Carries marks) asked (past ++ marks) x) (grows : marks ⊆ marks') :
    InDecided (H.Carries marks') asked (past ++ marks') x := by
  obtain ⟨e, he, answers, ev, about, s, carries, decided⟩ := h
  refine ⟨e, he, answers, ev, about, s, carries.mono grows, ?_⟩
  rcases List.mem_append.mp decided with decided | decided
  · exact List.mem_append_left _ decided
  · exact List.mem_append_right _ (grows decided)

theorem Grounds.mono {marks marks' : List Event} {x : Reply} (h : Grounds H asked past marks r x)
    (grows : marks ⊆ marks') : Grounds H asked past marks' r x :=
  h.imp_right fun decided => decided.mono grows

theorem round_replies {E : Env} {c : Coordinator} (s₀ s base : ClusterState) :
    ((c.place E s₀).1.desk.publish base s).replies = c.desk.replies ∧
      ((c.place E s₀).1.desk.publish base s).marks = c.desk.marks ++ [.published base s] := by
  cases store : E.metadata with
  | none =>
    rw [place_none store]
    exact ⟨rfl, rfl⟩
  | some look =>
    rw [desk_place store]
    exact ⟨rfl, rfl⟩

theorem not_candidate (leads : d.mode = .leader) : d.mode ≠ .candidate := by
  rw [leads]
  rintro ⟨⟩

theorem carried_of_due {w : Waiting} (due : d.due w = true) : w.carriedAt ≠ notCarried := by
  unfold Desk.due at due
  rw [Bool.and_eq_true, bne_iff_ne] at due
  exact due.1

/-- **One chore** keeps track of whoever waits, and every success it puts out has
grounds. -/
theorem Chore.heard (chore : Chore H.env H.report r d d') (h : Heard H asked past d)
    (received : ∀ e, H.report = some e → e ∈ asked)
    (true_so_far : ∀ x ∈ d.replies, x.ok = true → Grounds H asked past d.marks r x) :
    Heard H asked past d' ∧
      ∀ x ∈ d'.replies, x.ok = true → Grounds H asked past d'.marks r x := by
  have told {new : List Reply}
      (grounds : ∀ x ∈ new, x.ok = true → Grounds H asked past d.marks r x) :
      ∀ x ∈ d.replies ++ new, x.ok = true → Grounds H asked past d.marks r x :=
    List.forall_mem_append.mpr ⟨true_so_far, grounds⟩
  cases chore with
  | note evs leads =>
    refine ⟨⟨fun w hw => ?_, h.nobody⟩, true_so_far⟩
    exact (h.awaits w hw).mono (fun ev hev => List.mem_append_left _ hev) rfl (List.Subset.refl _)
  | take e kind ev got leads about =>
    refine ⟨⟨fun w hw => ?_, fun candidate => ?_⟩, true_so_far⟩
    · rcases List.mem_append.mp hw with hw | hw
      · exact (h.awaits w hw).mono (fun ev hev => List.mem_append_left _ hev) rfl
          (List.Subset.refl _)
      · obtain rfl := List.mem_singleton.mp hw
        exact ⟨e, received e got, ⟨rfl, rfl⟩, ev, about, Or.inl
          ⟨rfl, List.mem_append_right _ List.mem_cons_self, Or.inr ⟨e, kind, got, about⟩⟩⟩
    · exact absurd candidate (not_candidate leads)
  | outdated e kind ev got leads about late primary =>
    refine ⟨h.same rfl rfl rfl rfl id, told fun x hx _ => ?_⟩
    obtain rfl := List.mem_singleton.mp hx
    exact Or.inl ⟨e, got, ⟨rfl, rfl⟩, late, ev, about, primary⟩
  | refuse e kind got =>
    refine ⟨h.same rfl rfl rfl rfl id, told fun x hx ok => ?_⟩
    obtain rfl := List.mem_singleton.mp hx
    exact absurd ok nofun
  | command e t got action leads wet ordered => exact ⟨h.same rfl rfl rfl rfl id, true_so_far⟩
  | round c s₀ s here leads idle made =>
    obtain ⟨replies, marks⟩ := round_replies (E := H.env) (c := c) s₀ s d.committed
    have heard := h.round [] (s := s) (by rw [here, List.append_nil, ← leads])
      (fun _ => idle) made
    refine ⟨heard, fun x hx ok => ?_⟩
    rw [replies, here] at hx
    rw [marks, here]
    exact (true_so_far x hx ok).mono (List.subset_append_left _ _)
  | lead c s₀ s term stood here made other =>
    obtain ⟨replies, marks⟩ := round_replies (E := H.env) (c := c) s₀ s d.accepted
    refine ⟨h.round _ here (fun some => absurd (h.nobody stood) some) made, fun x hx ok => ?_⟩
    rw [replies, here] at hx
    rw [marks, here, List.append_assoc]
    exact (true_so_far x hx ok).mono (List.subset_append_left _ _)
  | decide s leads inFlight =>
    -- what was in flight is decided
    have heard : Heard H asked past
        { d with inFlight := none, marks := d.marks ++ [.decided s] } := by
      refine ⟨fun w hw => ?_, h.nobody⟩
      obtain ⟨e, he, answers, ev, about, waits⟩ := h.awaits w hw
      refine ⟨e, he, answers, ev, about, waits.imp_right ?_⟩
      rintro ⟨s', carries, flew | decided⟩
      · obtain rfl := Option.some.inj (inFlight.symm.trans flew)
        refine ⟨s, carries.mono (List.subset_append_left _ _), Or.inr ?_⟩
        simp
      · refine ⟨s', carries.mono (List.subset_append_left _ _), Or.inr ?_⟩
        rw [← List.append_assoc]
        exact List.mem_append_left _ decided
    unfold Desk.decide
    dsimp only
    generalize hd : ({ d with inFlight := none, marks := d.marks ++ [.decided s] } : Desk) = x
      at heard ⊢
    obtain ⟨events, replies, marks, put, _⟩ := applyCommitted_same x s
    refine ⟨heard.same events replies (applyCommitted_inFlight x s) marks
      fun candidate => (applyCommitted_mode x s).symm.trans candidate, fun y hy ok => ?_⟩
    rw [put] at hy
    rw [marks]
    subst hd
    exact (true_so_far y hy ok).mono (List.subset_append_left _ _)
  | answer leads idle =>
    refine ⟨⟨fun w hw => ?_, fun candidate => ?_⟩, told fun x hx ok => ?_⟩
    · exact h.awaits w (List.mem_of_mem_filter hw)
    · exact absurd candidate (not_candidate leads)
    · obtain ⟨w, hw, rfl⟩ := List.mem_map.mp hx
      obtain ⟨hw, due⟩ := List.mem_filter.mp hw
      exact Or.inr ((h.awaits w hw).decided idle (carried_of_due due))
  | stepDown =>
    refine ⟨⟨fun w hw => absurd hw List.not_mem_nil, fun _ => rfl⟩, told fun x hx ok => ?_⟩
    obtain ⟨w, _, rfl⟩ := List.mem_map.mp hx
    exact absurd ok nofun
  | follow l stood => exact ⟨h.same rfl rfl rfl rfl fun _ => stood, true_so_far⟩
  | accept s l =>
    refine ⟨h.same rfl rfl rfl rfl fun candidate => ?_, true_so_far⟩
    exact absurd candidate nofun
  | adopt =>
    obtain ⟨events, replies, marks, put, _⟩ := applyCommitted_same d d.accepted
    refine ⟨h.same events replies (applyCommitted_inFlight d _) marks
      fun candidate => (applyCommitted_mode d _).symm.trans candidate, ?_⟩
    rw [put, marks]
    exact true_so_far
  | joined s l =>
    obtain ⟨events, replies, marks, put, _⟩ := applyCommitted_same d s
    have heard : Heard H asked past { d.applyCommitted s with mode := .follower l } := by
      refine h.same events replies (applyCommitted_inFlight d s) marks fun candidate => ?_
      exact absurd candidate nofun
    refine ⟨heard, ?_⟩
    show ∀ x ∈ (d.applyCommitted s).replies, x.ok = true →
      Grounds H asked past (d.applyCommitted s).marks r x
    rw [put, marks]
    exact true_so_far
  | boot config => exact ⟨h.same rfl rfl rfl rfl id, true_so_far⟩

theorem Chores.heard (chores : Chores H.env H.report r d d') (h : Heard H asked past d)
    (received : ∀ e, H.report = some e → e ∈ asked)
    (true_so_far : ∀ x ∈ d.replies, x.ok = true → Grounds H asked past d.marks r x) :
    Heard H asked past d' ∧
      ∀ x ∈ d'.replies, x.ok = true → Grounds H asked past d'.marks r x := by
  induction chores with
  | refl => exact ⟨h, true_so_far⟩
  | tail _ chore ih => exact chore.heard ih.1 received ih.2

/-- Whoever waited still waits, or has been told: of a success, with the event in a
decided state, or of an error. -/
def Served (H : Hand) (asked : List Envelope) (past : List Event) (before : List Waiting)
    (d : Desk) : Prop :=
  ∀ w ∈ before, (∃ w' ∈ d.eventReplies, w'.reply true = w.reply true) ∨
    (w.reply true ∈ d.replies ∧
      InDecided (H.Carries d.marks) asked (past ++ d.marks) (w.reply true)) ∨
    w.reply false ∈ d.replies

theorem Served.same {before : List Waiting} (h : Served H asked past before d)
    (replies : d.eventReplies ⊆ d'.eventReplies) (put : d.replies ⊆ d'.replies)
    (marks : d.marks ⊆ d'.marks) : Served H asked past before d' := by
  intro w hw
  rcases h w hw with ⟨w', hw', same⟩ | ⟨answered, decided⟩ | failed
  · exact Or.inl ⟨w', replies hw', same⟩
  · exact Or.inr (Or.inl ⟨put answered, decided.mono marks⟩)
  · exact Or.inr (Or.inr (put failed))

theorem reply_eq {w w' : Waiting} (h : w'.reply true = w.reply true) (ok : Bool) :
    w'.reply ok = w.reply ok := by
  simp only [Waiting.reply, Reply.mk.injEq] at h ⊢
  tauto

theorem Chore.served {before : List Waiting} (chore : Chore H.env H.report r d d')
    (heard : Heard H asked past d) (h : Served H asked past before d) :
    Served H asked past before d' := by
  have round : ∀ {c : Coordinator} {s₀ s base : ClusterState} (m : Mode) (ms : List Event),
      c.desk = { d with mode := m, marks := d.marks ++ ms } →
        Served H asked past before ((c.place H.env s₀).1.desk.publish base s) := by
    intro c s₀ s base m ms here w hw
    obtain ⟨put, marks⟩ := round_replies (E := H.env) (c := c) s₀ s base
    have replies : c.eventReplies = d.eventReplies := congrArg Desk.eventReplies here
    have grows : d.marks ⊆ ((c.place H.env s₀).1.desk.publish base s).marks := by
      rw [marks, here, List.append_assoc]
      exact List.subset_append_left _ _
    have told : d.replies ⊆ ((c.place H.env s₀).1.desk.publish base s).replies := by
      rw [put, here]
      exact List.Subset.refl _
    rcases h w hw with ⟨w', hw', same⟩ | ⟨answered, decided⟩ | failed
    · refine Or.inl ?_
      cases store : H.env.metadata with
      | none =>
        rw [place_none store]
        have kept : w' ∈ c.eventReplies := replies.symm ▸ hw'
        exact ⟨w', kept, same⟩
      | some look =>
        rw [desk_place store]
        refine ⟨_, List.mem_map_of_mem (replies.symm ▸ hw'), ?_⟩
        split
        · exact same
        · exact same
    · exact Or.inr (Or.inl ⟨told answered, decided.mono grows⟩)
    · exact Or.inr (Or.inr (told failed))
  have same : ∀ {d'' : Desk}, d.eventReplies ⊆ d''.eventReplies → d.replies ⊆ d''.replies →
      d''.marks = d.marks → Served H asked past before d'' := fun replies put marks =>
    h.same replies put (marks ▸ List.Subset.refl _)
  cases chore with
  | note evs leads => exact same (List.Subset.refl _) (List.Subset.refl _) rfl
  | take e kind ev got leads about =>
    exact same (List.subset_append_left _ _) (List.Subset.refl _) rfl
  | outdated e kind ev got leads about late primary =>
    exact same (List.Subset.refl _) (List.subset_append_left _ _) rfl
  | refuse e kind got => exact same (List.Subset.refl _) (List.subset_append_left _ _) rfl
  | command e t got action leads wet ordered =>
    exact same (List.Subset.refl _) (List.Subset.refl _) rfl
  | round c s₀ s here leads idle made =>
    exact round d.mode [] (by rw [here, List.append_nil])
  | lead c s₀ s term stood here made other => exact round _ _ here
  | decide s leads inFlight =>
    have decided : Served H asked past before
        { d with inFlight := none, marks := d.marks ++ [.decided s] } :=
      h.same (List.Subset.refl _) (List.Subset.refl _) (List.subset_append_left _ _)
    obtain ⟨_, replies, marks, put, _⟩ := applyCommitted_same
      { d with inFlight := none, marks := d.marks ++ [.decided s] } s
    exact decided.same (fun w hw => replies.symm ▸ hw) (fun x hx => put.symm ▸ hx)
      fun x hx => marks.symm ▸ hx
  | answer leads idle =>
    intro w hw
    rcases h w hw with ⟨w', hw', same⟩ | ⟨answered, decided⟩ | failed
    · cases due : d.due w' with
      | false => exact Or.inl ⟨w', List.mem_filter.mpr ⟨hw', by rw [due]; rfl⟩, same⟩
      | true =>
        refine Or.inr (Or.inl ⟨List.mem_append_right _ ?_, ?_⟩)
        · rw [← same]
          exact List.mem_map_of_mem (List.mem_filter.mpr ⟨hw', due⟩)
        · rw [← same]
          exact (heard.awaits w' hw').decided idle (carried_of_due due)
    · exact Or.inr (Or.inl ⟨List.mem_append_left _ answered, decided⟩)
    · exact Or.inr (Or.inr (List.mem_append_left _ failed))
  | stepDown =>
    intro w hw
    rcases h w hw with ⟨w', hw', same⟩ | ⟨answered, decided⟩ | failed
    · refine Or.inr (Or.inr (List.mem_append_right _ ?_))
      rw [← reply_eq same]
      exact List.mem_map_of_mem hw'
    · exact Or.inr (Or.inl ⟨List.mem_append_left _ answered, decided⟩)
    · exact Or.inr (Or.inr (List.mem_append_left _ failed))
  | follow l stood => exact same (List.Subset.refl _) (List.Subset.refl _) rfl
  | accept s l => exact same (List.Subset.refl _) (List.Subset.refl _) rfl
  | adopt =>
    obtain ⟨_, replies, marks, put, _⟩ := applyCommitted_same d d.accepted
    exact same (fun w hw => replies.symm ▸ hw) (fun x hx => put.symm ▸ hx) marks
  | joined s l =>
    obtain ⟨_, replies, marks, put, _⟩ := applyCommitted_same d s
    have kept : Served H asked past before (d.applyCommitted s) :=
      same (fun w hw => replies.symm ▸ hw) (fun x hx => put.symm ▸ hx) marks
    exact kept.same (List.Subset.refl _) (List.Subset.refl _) (List.Subset.refl _)
  | boot config => exact same (List.Subset.refl _) (List.Subset.refl _) rfl

theorem Chores.served {before : List Waiting} (chores : Chores H.env H.report r d d')
    (heard : Heard H asked past d) (received : ∀ e, H.report = some e → e ∈ asked)
    (true_so_far : ∀ x ∈ d.replies, x.ok = true → Grounds H asked past d.marks r x)
    (h : Served H asked past before d) : Served H asked past before d' := by
  induction chores with
  | refl => exact h
  | tail chores chore ih =>
    exact chore.served (Chores.heard chores heard received true_so_far).1 ih

end Chore

/-! ## One input -/

section Handle

variable {c : Coordinator} {asked : List Envelope} {past : List Event}
variable {C : ClusterState → ShardEvent → Prop}

/-- What a node keeps between two inputs of whoever waits; `C` is what states carry. -/
def Ready (C : ClusterState → ShardEvent → Prop) (asked : List Envelope) (past : List Event)
    (c : Coordinator) : Prop :=
  ∀ E inp, Heard ⟨E, inp, c.shardEvents, C⟩ asked past c.cleared

theorem Heard.settle {H : Hand} (h : Heard H asked past c.desk)
    (carried : ∀ s ev, H.Carries c.history s ev → C s ev) :
    Ready C asked (past ++ c.history) c := by
  have shown : c.desk.marks ⊆ c.history := List.filter_subset_self _
  refine fun E inp => ⟨fun w hw => ?_, h.nobody⟩
  obtain ⟨e, he, answers, ev, about, waits⟩ := h.awaits w hw
  refine ⟨e, he, answers, ev, about, waits.imp (fun x => ⟨x.1, x.2.1, Or.inl x.2.1⟩) ?_⟩
  rintro ⟨s, carries, there⟩
  refine ⟨s, Or.inl (carried s ev (carries.mono shown)), there.imp_right fun decided => ?_⟩
  refine List.mem_append_left _ ?_
  rcases List.mem_append.mp decided with decided | decided
  · exact List.mem_append_left _ decided
  · exact List.mem_append_right _ (shown decided)

/-- What handling an input leaves: the reporters are kept track of, every success has
grounds, and whoever waited is served. -/
structure Handled (H : Hand) (asked : List Envelope) (past : List Event) (c d : Coordinator) :
    Prop where
  heard : Heard H asked past d.desk
  grounds : ∀ x ∈ d.out.filterMap Output.reply, x.ok = true →
    Grounds H asked past d.history c.committed.routing x
  served : ∀ w ∈ c.eventReplies, (∃ w' ∈ d.eventReplies, w'.reply true = w.reply true) ∨
    (w.reply true ∈ d.out.filterMap Output.reply ∧
      InDecided (H.Carries d.history) asked (past ++ d.history) (w.reply true)) ∨
    w.reply false ∈ d.out.filterMap Output.reply

theorem handle_handled (E : Env) (h : Ready C asked past c) (i : Input)
    (received : ∀ e, i = .message e → e ∈ asked) :
    Handled ⟨E, i.envelope, c.shardEvents, C⟩ asked past c (c.handle E i) := by
  have heard : Heard ⟨E, i.envelope, c.shardEvents, C⟩ asked past c.cleared := h E i.envelope
  have waiting : Served ⟨E, i.envelope, c.shardEvents, C⟩ asked past c.eventReplies c.cleared :=
    fun w hw => Or.inl ⟨w, hw, rfl⟩
  have shown : (c.handle E i).desk.marks ⊆ (c.handle E i).history := List.filter_subset_self _
  have nothing : ∀ x ∈ c.cleared.replies, x.ok = true →
      Grounds ⟨E, i.envelope, c.shardEvents, C⟩ asked past c.cleared.marks c.committed.routing x :=
    fun x hx => absurd hx List.not_mem_nil
  have done : Heard ⟨E, i.envelope, c.shardEvents, C⟩ asked past (c.handle E i).desk →
      (∀ x ∈ (c.handle E i).desk.replies, x.ok = true →
        Grounds ⟨E, i.envelope, c.shardEvents, C⟩ asked past (c.handle E i).desk.marks
          c.committed.routing x) →
      Served ⟨E, i.envelope, c.shardEvents, C⟩ asked past c.eventReplies (c.handle E i).desk →
      Handled ⟨E, i.envelope, c.shardEvents, C⟩ asked past c (c.handle E i) := by
    intro heard grounds served
    refine ⟨heard, fun x hx ok => (grounds x hx ok).mono shown, fun w hw => ?_⟩
    exact (served w hw).imp_right fun told => told.imp_left fun both => ⟨both.1, both.2.mono shown⟩
  by_cases running : i = .start
  · subst running
    obtain ⟨committed, accepted, heq⟩ := desk_start (E := E) c
    have step : Chore E none c.committed.routing c.cleared c.cleared.stepDown := .stepDown _
    have down := step.heard (H := ⟨E, none, c.shardEvents, C⟩) heard
      (by rintro e ⟨⟩) nothing
    have served := step.served (H := ⟨E, none, c.shardEvents, C⟩) heard waiting
    refine done ?_ ?_ ?_ <;> rw [heq]
    · exact down.1.same rfl rfl rfl rfl id
    · exact down.2
    · exact served.same (List.Subset.refl _) (List.Subset.refl _) (List.Subset.refl _)
  · have got : ∀ e, i.envelope = some e → e ∈ asked := by
      intro e got
      cases i with
      | message x => exact received e (congrArg Input.message (Option.some.inj got))
      | _ => exact absurd got nofun
    have chores := handle_chores (E := E) c running
    obtain ⟨kept, grounds⟩ := Chores.heard (H := ⟨E, i.envelope, c.shardEvents, C⟩) chores heard
      got nothing
    exact done kept grounds (Chores.served (H := ⟨E, i.envelope, c.shardEvents, C⟩) chores heard
      got nothing waiting)

end Handle

/-! ## Over a life -/

/-- The message a happening is, if it is one. -/
def Happening.envelope : Happening → Option Envelope
  | .input _ i => i.envelope
  | .restart .. => none

/-- The state was published at one of the inputs of the life, with the event before it. -/
def Carried (l : Life) (hs : List Happening) (s : ClusterState) (ev : ShardEvent) : Prop :=
  ∃ before E i after, hs = before ++ .input E i :: after ∧
    Publishes E i.envelope (l.run before).now.shardEvents
      ((l.run before).now.handle E i).history s ev

/-- The event of a report is in a state the node published with it and has decided. -/
def Decided (l : Life) (hs : List Happening) (x : Reply) : Prop :=
  InDecided (Carried l hs) (hs.filterMap Happening.envelope) (l.run hs).past x

/-- A success is put out for a reason: the report named the primary of what the node had
committed when it came, or its event is in a state the node has decided. -/
def Truthful (l : Life) (hs : List Happening) (x : Reply) : Prop :=
  (∃ before E e after, hs = before ++ .input E (.message e) :: after ∧
    NamesPrimary (l.run before).now.committed.routing e x) ∨
  Decided l hs x

theorem Carried.later {l : Life} {hs : List Happening} {s : ClusterState} {ev : ShardEvent}
    (h : Carried l hs s ev) (more : List Happening) : Carried l (hs ++ more) s ev := by
  obtain ⟨before, E, i, after, rfl, takes⟩ := h
  exact ⟨before, E, i, after ++ more, by simp, takes⟩

theorem Truthful.later {l : Life} {hs : List Happening} {x : Reply} (h : Truthful l hs x)
    (more : List Happening) : Truthful l (hs ++ more) x := by
  rcases h with ⟨before, E, e, after, rfl, names⟩ | ⟨e, he, answers, ev, about, s, carried, decided⟩
  · exact Or.inl ⟨before, E, e, after ++ more, by simp, names⟩
  · refine Or.inr ⟨e, ?_, answers, ev, about, s, carried.later more, ?_⟩
    · rw [List.filterMap_append]
      exact List.mem_append_left _ he
    · rw [Life.run_append]
      exact (Life.past_run _ more).subset decided

theorem Ready.wait {C : ClusterState → ShardEvent → Prop} {asked asked' : List Envelope}
    {past : List Event} {c : Coordinator} (h : Ready C asked past c) (more : asked ⊆ asked') :
    Ready C asked' past c := by
  refine fun E inp => ⟨fun w hw => ?_, (h E inp).nobody⟩
  obtain ⟨e, he, rest⟩ := (h E inp).awaits w hw
  exact ⟨e, more he, rest⟩

/-- What the life of a node comes to at an input: the answers of it are true, and whoever
waited is served. -/
structure Answered (l : Life) (hs : List Happening) : Prop where
  ready : Ready (Carried l hs) (hs.filterMap Happening.envelope) (l.run hs).past (l.run hs).now
  truthful : ∀ x ∈ (l.run hs).outs.filterMap Output.reply, x.ok = true → Truthful l hs x

/-- **One input of a life.** -/
theorem Answered.input {l : Life} {hs : List Happening} (h : Answered l hs) (E : Env) (i : Input) :
    Answered l (hs ++ [.input E i]) ∧ ∀ w ∈ (l.run hs).now.eventReplies,
      (∃ w' ∈ ((l.run hs).now.handle E i).eventReplies, w'.reply true = w.reply true) ∨
        (w.reply true ∈ ((l.run hs).now.handle E i).out.filterMap Output.reply ∧
          Decided l (hs ++ [.input E i]) (w.reply true)) ∨
        w.reply false ∈ ((l.run hs).now.handle E i).out.filterMap Output.reply := by
  have asked : (hs ++ [Happening.input E i]).filterMap Happening.envelope =
      hs.filterMap Happening.envelope ++ i.envelope.toList := by
    rw [List.filterMap_append]
    cases henv : i.envelope <;> simp [Happening.envelope, henv]
  have last : l.run (hs ++ [.input E i]) = (l.run hs).step (.input E i) := by simp
  have handled := handle_handled E (h.ready.wait (List.subset_append_left _ i.envelope.toList)) i
    (fun e hi => by
      rw [hi]
      simp [Input.envelope])
  have carried : ∀ s ev, Hand.Carries ⟨E, i.envelope, (l.run hs).now.shardEvents, Carried l hs⟩
      ((l.run hs).now.handle E i).history s ev → Carried l (hs ++ [.input E i]) s ev := by
    rintro s ev (old | takes)
    · exact old.later _
    · exact ⟨hs, E, i, [], rfl, takes⟩
  have decided : ∀ x, InDecided
      (Hand.Carries ⟨E, i.envelope, (l.run hs).now.shardEvents, Carried l hs⟩
        ((l.run hs).now.handle E i).history)
      (hs.filterMap Happening.envelope ++ i.envelope.toList)
      ((l.run hs).past ++ ((l.run hs).now.handle E i).history) x →
        Decided l (hs ++ [.input E i]) x := by
    rintro x ⟨e, he, answers, ev, about, s, carries, decided⟩
    unfold Decided
    rw [asked, last]
    exact ⟨e, he, answers, ev, about, s, carried s ev carries, decided⟩
  refine ⟨⟨?_, fun x hx ok => ?_⟩, fun w hw => ?_⟩
  · rw [asked, last]
    exact handled.heard.settle carried
  · rw [last] at hx
    rcases List.mem_append.mp (List.filterMap_append ▸ hx) with hx | hx
    · exact (h.truthful x hx ok).later _
    · rcases handled.grounds x hx ok with ⟨e, got, names⟩ | grounds
      · obtain rfl : i = .message e := by
          cases i with
          | message y => exact congrArg Input.message (Option.some.inj got)
          | _ => exact absurd got nofun
        exact Or.inl ⟨hs, E, e, [], rfl, names⟩
      · exact Or.inr (decided x grounds)
  · exact (handled.served w hw).imp_right fun told =>
      told.imp_left fun both => ⟨both.1, decided _ both.2⟩

/-- A process started anew keeps nobody waiting and puts no success out. -/
theorem start_answered (E : Env) (C : ClusterState → ShardEvent → Prop) (g : Config)
    (uuid : String) (disk : Durable) (asked : List Envelope) (past : List Event) :
    Ready C asked past ((g.process uuid disk).handle E .start) ∧
      ∀ x ∈ ((g.process uuid disk).handle E .start).out.filterMap Output.reply, x.ok = false := by
  obtain ⟨committed, accepted, heq⟩ := desk_start (E := E) (g.process uuid disk)
  have events : ((g.process uuid disk).handle E .start).desk.eventReplies = [] := by
    rw [heq]
    rfl
  refine ⟨fun E' inp => ⟨fun w hw => ?_, fun _ => events⟩, fun x hx => ?_⟩
  · have hw : w ∈ ((g.process uuid disk).handle E .start).desk.eventReplies := hw
    rw [events] at hw
    exact absurd hw List.not_mem_nil
  · have hx : x ∈ ((g.process uuid disk).handle E .start).desk.replies := hx
    rw [heq] at hx
    exact absurd hx List.not_mem_nil

theorem Answered.restart {l : Life} {hs : List Happening} (h : Answered l hs) (E : Env)
    (g : Config) (uuid : String) : Answered l (hs ++ [.restart E g uuid]) := by
  have last : l.run (hs ++ [.restart E g uuid]) = (l.run hs).step (.restart E g uuid) := by simp
  have anew := fun C => start_answered E C (g.ofNode (l.run hs).now.me.id) uuid
    (l.run hs).now.durable
  refine ⟨?_, fun x hx ok => ?_⟩
  · rw [last]
    exact (anew _ _ _).1
  · rw [last] at hx
    rcases List.mem_append.mp (List.filterMap_append ▸ hx) with hx | hx
    · exact (h.truthful x hx ok).later _
    · rw [(anew (Carried l hs) [] []).2 x hx] at ok
      cases ok

theorem life_answered (env : Env) (g : Config) (uuid : String) (hs : List Happening) :
    Answered (Life.born env g uuid) hs := by
  induction hs using List.reverseRecOn with
  | nil =>
    refine ⟨(start_answered env _ g uuid {} _ _).1, fun x hx ok => ?_⟩
    rw [(start_answered env (Carried (Life.born env g uuid) []) g uuid {} [] []).2 x hx] at ok
    cases ok
  | append_singleton hs h ih =>
    cases h with
    | input E i => exact (ih.input E i).1
    | restart E g' uuid' => exact ih.restart E g' uuid'

end Velosearch.Cluster
