import ChipEight.Ticker
import Mathlib.Data.List.Infix

/-! The life of a callback thread, over all requests to the handle and all ways in which threads move in
between. The handle lets go of a thread only once it has ended, so there is never a second one; it tells a
thread to stop once only, so the message always finds room; and a thread that has ended does nothing any
more. -/
namespace ChipEight

theorem modify_fixed {α : Type} {f : α → α} {l : List α} (fixed : ∀ x ∈ l, f x = x) (k : Nat) :
    l.modify k f = l := by
  induction l generalizing k with
  | nil => exact List.modify_nil f k
  | cons x rest ih =>
    obtain ⟨first, later⟩ := List.forall_mem_cons.mp fixed
    cases k with
    | zero => rw [List.modify_zero_cons, first]
    | succ k => rw [List.modify_succ_cons, ih later]

theorem suffix_modify {α : Type} {f : α → α} {l xs : List α} (fixed : ∀ x ∈ l, f x = x)
    (suffix : l <:+ xs) (k : Nat) : l <:+ xs.modify k f := by
  obtain ⟨front, rfl⟩ := suffix
  induction front generalizing k with
  | nil => rw [List.nil_append, modify_fixed fixed]
  | cons x rest ih =>
    cases k with
    | zero => exact ⟨f x :: rest, rfl⟩
    | succ k => exact (ih k).trans (List.suffix_cons _ _)

theorem map_modify {α β : Type} {f : α → α} {g : α → β} (same : ∀ x, g (f x) = g x) (l : List α)
    (k : Nat) : (l.modify k f).map g = l.map g := by
  induction l generalizing k with
  | nil => rw [List.modify_nil]
  | cons x rest ih =>
    cases k with
    | zero => rw [List.modify_zero_cons, List.map_cons, List.map_cons, same]
    | succ k => rw [List.modify_succ_cons, List.map_cons, List.map_cons, ih]

namespace Thread

/-- The channel, which holds one message at most, is empty. -/
def hasRoom (t : Thread) : Bool := t.sent = t.received

/-- Not told to stop yet. The thread may still have ended by itself. -/
structure Untold (t : Thread) : Prop where
  sent : t.sent = 0
  received : t.received = 0
  stopped : t.activity ≠ .over false

structure Ended (t : Thread) : Prop where
  still : t.isAlive = false
  sent : t.sent ≤ 1

/-- What a thread may do by itself. -/
structure Own (f : Thread → Thread) : Prop where
  keeps (t : Thread) : ∃ activity received calls, f t = { t with activity, received, calls }
  still {t : Thread} (still : t.isAlive = false) : f t = t
  untold {t : Thread} (untold : t.Untold) : (f t).Untold

theorem Own.sent {f : Thread → Thread} (own : Own f) (t : Thread) : (f t).sent = t.sent := by
  obtain ⟨activity, received, calls, kept⟩ := own.keeps t
  rw [kept]

theorem Own.failsAt {f : Thread → Thread} (own : Own f) (t : Thread) :
    (f t).failsAt = t.failsAt := by
  obtain ⟨activity, received, calls, kept⟩ := own.keeps t
  rw [kept]

theorem isAlive_eq_false_iff {t : Thread} : t.isAlive = false ↔ ∃ failed, t.activity = .over failed := by
  unfold isAlive
  cases t.activity <;> simp

theorem own_beginCall : Own beginCall where
  keeps t := by
    unfold beginCall
    split <;> exact ⟨_, _, _, rfl⟩
  still {t} still := by
    obtain ⟨failed, ended⟩ := isAlive_eq_false_iff.mp still
    simp only [beginCall, ended]
  untold {t} untold := by
    unfold beginCall
    split
    · exact ⟨untold.sent, untold.received, nofun⟩
    · exact untold

theorem own_endCall : Own endCall where
  keeps t := by
    unfold endCall
    split <;> exact ⟨_, _, _, rfl⟩
  still {t} still := by
    obtain ⟨failed, ended⟩ := isAlive_eq_false_iff.mp still
    simp only [endCall, ended]
  untold {t} untold := by
    unfold endCall
    split
    · refine ⟨untold.sent, untold.received, ?_⟩
      dsimp only
      split <;> nofun
    · exact untold

theorem own_receive : Own receive where
  keeps t := by
    unfold receive
    split <;> exact ⟨_, _, _, rfl⟩
  still {t} still := by
    obtain ⟨failed, ended⟩ := isAlive_eq_false_iff.mp still
    simp [receive, ended]
  untold {t} untold := by
    -- the channel is empty
    have nothing : ¬(t.activity = .resting ∧ t.received < t.sent) := by
      rw [untold.sent]
      exact fun h => Nat.not_lt_zero _ h.2
    rw [receive, if_neg nothing]
    exact untold

theorem send_still {t : Thread} (still : t.isAlive = false) : t.send = t := by
  simp [send, still]

theorem send_sent_le {t : Thread} (untold : t.Untold) : t.send.sent ≤ 1 := by
  unfold send
  split <;> simp [untold.sent]

theorem send_failsAt (t : Thread) : t.send.failsAt = t.failsAt := by
  unfold send
  split <;> rfl

theorem untold_fresh (failsAt : Option Nat) : (fresh failsAt).Untold := ⟨rfl, rfl, nofun⟩

theorem Untold.isAlive_iff {t : Thread} (untold : t.Untold) :
    t.isAlive = true ↔ t.activity ≠ .over true := by
  rw [← Bool.not_eq_false, not_iff_not, isAlive_eq_false_iff]
  constructor
  · rintro ⟨failed, ended⟩
    cases failed with
    | true => exact ended
    | false => exact absurd ended untold.stopped
  · exact fun failed => ⟨true, failed⟩

end Thread

/-- What a request starts: a thread whose callback fails at a run or never. -/
def Request.started? : Request → Option (Option Nat)
  | .start failsAt => some failsAt
  | .stop | .discard => none

namespace Ticker

/-- The request whose call returns with an action. -/
def completed? (t : Ticker) : Action → Option Request
  | .request request => if t.holding = .nothing then some request else none
  | .join =>
    match t.holding with
    | .joining request => if t.newestOver then some request else none
    | _ => none
  | _ => none

/-- The requests whose calls have returned, oldest first. -/
def returned : Ticker → List Action → List Request
  | _, [] => []
  | t, a :: rest => (t.completed? a).toList ++ returned (t.act a) rest

/-- What an action comes to, with the request whose call returns. -/
inductive Acts (t : Ticker) : Option Request → Ticker → Prop where
  | idle : Acts t none t
  | own (k : Nat) {f : Thread → Thread} (own : Thread.Own f) :
      Acts t none { t with threads := t.threads.modify k f }
  | tell (request : Request) (held : t.holding = .thread) :
      Acts t none ⟨.joining request, t.threads.modifyHead .send⟩
  | complete (request : Request)
      (free : t.holding = .nothing ∨ t.holding = .joining request ∧ t.newestOver = true) :
      Acts t (some request) (t.complete request)

theorem acts (t : Ticker) (a : Action) : Acts t (t.completed? a) (t.act a) := by
  cases a with
  | request request =>
    cases holding : t.holding with
    | nothing =>
      simp only [completed?, act, holding, if_true]
      exact .complete request (.inl holding)
    | thread =>
      simp only [completed?, act, holding, reduceCtorEq, if_false]
      exact .tell request holding
    | joining _ | gone =>
      simp only [completed?, act, holding, reduceCtorEq, if_false]
      exact .idle
  | join =>
    cases holding : t.holding with
    | joining request =>
      simp only [completed?, act, holding]
      split
      · next still => exact .complete request (.inr ⟨holding, still⟩)
      · exact .idle
    | nothing | thread | gone =>
      simp only [completed?, act, holding]
      exact .idle
  | beginCall k => exact .own k Thread.own_beginCall
  | endCall k => exact .own k Thread.own_endCall
  | receive k => exact .own k Thread.own_receive

/-- The states of a ticker, with the last request whose call has returned. A thread that is held is the
newest; every other thread has ended. -/
inductive Orderly : Option Request → Ticker → Prop where
  | idle {last : Option Request} {holding : Holding} {threads : List Thread}
      (free : holding = .nothing ∨ holding = .gone) (other : ∀ failsAt, last ≠ some (.start failsAt))
      (ended : ∀ thread ∈ threads, thread.Ended) : Orderly last ⟨holding, threads⟩
  | held {newest : Thread} {older : List Thread} (untold : newest.Untold)
      (ended : ∀ thread ∈ older, thread.Ended) :
      Orderly (some (.start newest.failsAt)) ⟨.thread, newest :: older⟩
  | joining (request : Request) {newest : Thread} {older : List Thread} (told : newest.sent ≤ 1)
      (ended : ∀ thread ∈ older, thread.Ended) :
      Orderly (some (.start newest.failsAt)) ⟨.joining request, newest :: older⟩

variable {last r : Option Request} {t t' : Ticker}

theorem any_isAlive {threads : List Thread} (ended : ∀ thread ∈ threads, thread.Ended) :
    threads.any Thread.isAlive = false :=
  List.any_eq_false.mpr fun thread among => by simp [(ended thread among).still]

namespace Orderly

theorem unstarted : Orderly none unstarted := .idle (.inl rfl) nofun nofun

/-- A thread that is held and was not told to stop yet. -/
theorem of_thread (h : Orderly last t) (held : t.holding = .thread) : ∃ newest older,
    t.threads = newest :: older ∧ newest.Untold ∧ (∀ thread ∈ older, thread.Ended) ∧
      last = some (.start newest.failsAt) := by
  cases h with
  | idle free =>
    cases held
    rcases free with none | none <;> contradiction
  | joining => contradiction
  | @held newest older untold ended => exact ⟨newest, older, rfl, untold, ended, rfl⟩

theorem own (h : Orderly last t) (k : Nat) {f : Thread → Thread} (own : Thread.Own f) :
    Orderly last { t with threads := t.threads.modify k f } := by
  have fixed {threads : List Thread} (ended : ∀ thread ∈ threads, thread.Ended) (k : Nat) :
      threads.modify k f = threads :=
    modify_fixed (fun thread among => own.still (ended thread among).still) k
  cases h with
  | idle free other ended =>
    rw [fixed ended]
    exact .idle free other ended
  | held untold ended =>
    cases k with
    | zero =>
      rw [List.modify_zero_cons, ← own.failsAt]
      exact .held (own.untold untold) ended
    | succ k =>
      rw [List.modify_succ_cons, fixed ended]
      exact .held untold ended
  | joining request told ended =>
    cases k with
    | zero =>
      rw [List.modify_zero_cons, ← own.failsAt]
      exact .joining request ((own.sent _).trans_le told) ended
    | succ k =>
      rw [List.modify_succ_cons, fixed ended]
      exact .joining request told ended

/-- Nothing is running when a request is completed. -/
theorem ended (h : Orderly last t) {request : Request}
    (free : t.holding = .nothing ∨ t.holding = .joining request ∧ t.newestOver = true) :
    ∀ thread ∈ t.threads, thread.Ended := by
  cases h with
  | idle _ _ ended => exact ended
  | held => rcases free with none | ⟨none, -⟩ <;> contradiction
  | @joining _ newest older told ended =>
    have still : newest.isAlive = false := by
      rcases free with none | ⟨-, still⟩
      · contradiction
      · simpa [newestOver] using still
    exact List.forall_mem_cons.mpr ⟨⟨still, told⟩, ended⟩

theorem still (h : Orderly last t) {request : Request} (rule : Acts t (some request) t') :
    ∀ thread ∈ t.threads, thread.isAlive = false := by
  cases rule with
  | complete _ free => exact fun thread among => (h.ended free thread among).still

theorem complete (ended : ∀ thread ∈ t.threads, thread.Ended) (request : Request) :
    Orderly (some request) (t.complete request) := by
  cases request with
  | start failsAt => exact .held (Thread.untold_fresh failsAt) ended
  | stop => exact .idle (.inl rfl) nofun ended
  | discard => exact .idle (.inr rfl) nofun ended

theorem acts (h : Orderly last t) (rule : Acts t r t') : Orderly (r.or last) t' := by
  cases rule with
  | idle => exact h
  | own k own => exact h.own k own
  | tell request held =>
    obtain ⟨newest, older, threads, untold, ended, rfl⟩ := h.of_thread held
    rw [threads, Option.none_or, ← newest.send_failsAt]
    exact .joining request (Thread.send_sent_le untold) ended
  | complete request free =>
    rw [Option.some_or]
    exact complete (h.ended free) request

theorem getLast?_toList {α : Type} (x : Option α) : x.toList.getLast? = x := by
  cases x <;> rfl

theorem actAll (h : Orderly last t) (actions : List Action) :
    Orderly ((t.returned actions).getLast?.or last) (t.actAll actions) := by
  induction actions generalizing last t with
  | nil => exact h
  | cons a rest ih =>
    have next := ih (h.acts (t.acts a))
    rw [returned, List.getLast?_append, Option.or_assoc, getLast?_toList]
    exact next

theorem sent_le (h : Orderly last t) : ∀ thread ∈ t.threads, thread.sent ≤ 1 := by
  cases h with
  | idle _ _ ended => exact fun thread among => (ended thread among).sent
  | held untold ended =>
    exact List.forall_mem_cons.mpr
      ⟨untold.sent.trans_le (Nat.zero_le 1), fun thread among => (ended thread among).sent⟩
  | joining _ told ended =>
    exact List.forall_mem_cons.mpr ⟨told, fun thread among => (ended thread among).sent⟩

theorem countP_eq_zero {threads : List Thread} (ended : ∀ thread ∈ threads, thread.Ended) :
    threads.countP Thread.isAlive = 0 :=
  List.countP_eq_zero.mpr fun thread among => by simp [(ended thread among).still]

theorem countP_le (h : Orderly last t) : t.threads.countP Thread.isAlive ≤ 1 := by
  cases h with
  | idle _ _ ended => exact (countP_eq_zero ended).trans_le (Nat.zero_le 1)
  | held _ ended | joining _ _ ended =>
    rw [List.countP_cons, countP_eq_zero ended]
    split <;> decide

theorem hasRoom (h : Orderly last t) (held : t.holding = .thread) :
    ∃ newest ∈ t.threads.head?, newest.hasRoom = true := by
  obtain ⟨newest, older, threads, untold, -⟩ := h.of_thread held
  refine ⟨newest, by rw [threads]; rfl, ?_⟩
  simp [Thread.hasRoom, untold.sent, untold.received]

theorem isAlive_iff (h : Orderly last t) (idle : ∀ request, t.holding ≠ .joining request) :
    t.isAlive = true ↔ ∃ newest ∈ t.threads.head?,
      last = some (.start newest.failsAt) ∧ newest.activity ≠ .over true := by
  cases h with
  | @idle _ holding threads _ other ended =>
    have still : isAlive ⟨holding, threads⟩ = false := any_isAlive ended
    rw [still]
    constructor
    · nofun
    · rintro ⟨newest, _, started, _⟩
      exact absurd started (other newest.failsAt)
  | joining request => exact absurd rfl (idle request)
  | @held newest older untold ended =>
    have alone : isAlive ⟨.thread, newest :: older⟩ = newest.isAlive := by
      rw [isAlive, List.any_cons, any_isAlive ended, Bool.or_false]
    rw [alone, untold.isAlive_iff]
    constructor
    · exact fun well => ⟨newest, rfl, rfl, well⟩
    · rintro ⟨_, found, _, well⟩
      cases found
      exact well

end Orderly

/-- A thread that has ended stays as it is. -/
theorem Acts.suffix {old : List Thread} (still : ∀ thread ∈ old, thread.isAlive = false)
    (rule : Acts t r t') (suffix : old <:+ t.threads) : old <:+ t'.threads := by
  cases rule with
  | idle => exact suffix
  | own k own => exact suffix_modify (fun thread among => own.still (still thread among)) suffix k
  | tell request held =>
    dsimp only
    rw [List.modifyHead_eq_modify_zero]
    exact suffix_modify (fun thread among => Thread.send_still (still thread among)) suffix 0
  | complete request free =>
    cases request with
    | start failsAt => exact suffix.trans (List.suffix_cons _ _)
    | stop | discard => exact suffix

theorem actAll_suffix {old : List Thread} (still : ∀ thread ∈ old, thread.isAlive = false)
    (suffix : old <:+ t.threads) (actions : List Action) : old <:+ (t.actAll actions).threads := by
  induction actions generalizing t with
  | nil => exact suffix
  | cons a rest ih => exact ih ((t.acts a).suffix still suffix)

theorem Acts.started (rule : Acts t r t') : t'.threads.map Thread.failsAt =
    (r.bind Request.started?).toList ++ t.threads.map Thread.failsAt := by
  cases rule with
  | idle => rfl
  | own k own => exact map_modify own.failsAt _ k
  | tell request held =>
    dsimp only
    rw [List.modifyHead_eq_modify_zero]
    exact map_modify Thread.send_failsAt _ 0
  | complete request free => cases request <;> rfl

theorem actAll_started (t : Ticker) (actions : List Action) :
    (t.actAll actions).threads.map Thread.failsAt =
      ((t.returned actions).filterMap Request.started?).reverse ++ t.threads.map Thread.failsAt := by
  induction actions generalizing t with
  | nil => rfl
  | cons a rest ih =>
    calc ((t.act a).actAll rest).threads.map Thread.failsAt
      _ = _ := ih (t.act a)
      _ = _ := by
        rw [(t.acts a).started, returned, List.filterMap_append, List.reverse_append,
          List.append_assoc]
        cases t.completed? a with
        | none => rfl
        | some request => cases request <;> rfl

/-- The life of a callback thread, after any requests and any actions of the threads in between. One thread
at most is alive. No channel ever carries a second message, and when one is sent there is room for it. When
the call of a request returns, every thread that was started before has ended, and none of them ever does
anything again. The threads are those of the starts that have returned; and between two calls the ticker is
alive exactly if the last one that returned was a start and its thread has not failed. -/
theorem life_cycle (actions : List Action) :
    let t := unstarted.actAll actions
    t.threads.countP Thread.isAlive ≤ 1 ∧
    ((∀ thread ∈ t.threads, thread.sent ≤ 1) ∧
      (t.holding = .thread → ∃ newest ∈ t.threads.head?, newest.hasRoom = true)) ∧
    (∀ a request, t.completed? a = some request →
      (∀ thread ∈ t.threads, thread.isAlive = false) ∧
      ∀ later, t.threads <:+ ((t.act a).actAll later).threads) ∧
    t.threads.map Thread.failsAt =
      ((unstarted.returned actions).filterMap Request.started?).reverse ∧
    ((∀ request, t.holding ≠ .joining request) →
      (t.isAlive = true ↔ ∃ newest ∈ t.threads.head?,
        (unstarted.returned actions).getLast? = some (.start newest.failsAt) ∧
        newest.activity ≠ .over true)) := by
  intro t
  have orderly : Orderly (unstarted.returned actions).getLast? t := by
    simpa using Orderly.unstarted.actAll actions
  have started := (unstarted.actAll_started actions).trans (List.append_nil _)
  refine ⟨orderly.countP_le, ⟨orderly.sent_le, orderly.hasRoom⟩, ?_, started, orderly.isAlive_iff⟩
  intro a request returns
  have rule := t.acts a
  rw [returns] at rule
  have still := orderly.still rule
  exact ⟨still, actAll_suffix still (rule.suffix still (List.suffix_refl _))⟩

/-- A start on a running ticker, and a callback that fails when the thread has been told to stop. -/
theorem restarted_and_failed :
    let busy := unstarted.actAll [.request (.start (some 5)), .beginCall 0, .request (.start none),
      .endCall 0, .receive 0, .join, .beginCall 0]
    let failed := unstarted.actAll [.request (.start (some 1)), .beginCall 0, .request .stop, .endCall 0]
    (busy.holding = .thread ∧ busy.threads.length = 2 ∧ busy.isAlive = true ∧
      failed.completed? .join = some .stop) ∧
    (busy.threads.countP Thread.isAlive ≤ 1 ∧ ∃ newest ∈ busy.threads.head?, newest.hasRoom = true) ∧
    (∀ later, failed.threads <:+ ((failed.act .join).actAll later).threads) ∧
    ∃ newest ∈ busy.threads.head?, newest.failsAt = none ∧ newest.activity ≠ .over true := by
  intro busy failed
  obtain ⟨held, two, alive, returns⟩ : busy.holding = .thread ∧ busy.threads.length = 2 ∧
      busy.isAlive = true ∧ failed.completed? .join = some .stop := by
    decide
  obtain ⟨one, ⟨_, room⟩, _, _, alive_iff⟩ := life_cycle [.request (.start (some 5)), .beginCall 0,
    .request (.start none), .endCall 0, .receive 0, .join, .beginCall 0]
  obtain ⟨_, _, quiet, _⟩ := life_cycle [.request (.start (some 1)), .beginCall 0, .request .stop,
    .endCall 0]
  have idle : ∀ request, busy.holding ≠ .joining request := by
    rw [held]
    nofun
  obtain ⟨newest, found, last, well⟩ := (alive_iff idle).mp alive
  have started : newest.failsAt = none := by
    cases found
    rfl
  exact ⟨⟨held, two, alive, returns⟩, ⟨one, room held⟩, (quiet .join .stop returns).2,
    ⟨newest, found, started, well⟩⟩

end Ticker
end ChipEight
