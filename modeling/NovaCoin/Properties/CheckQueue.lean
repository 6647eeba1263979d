import NovaCoin.CheckQueue
import NovaCoin.Infra.Runs
import NovaCoin.Infra.Tally

/-!
# Wait gives the result of all checks

The counters of the queue are sums over the threads: `nIdle` counts those in `cond.wait`, `nTotal`
those in `Loop`, and `nTodo` the checks on the stack and in the batches (`CheckSystem.Inv`). That
`Wait` does return is in `exists_step` and `measure_lt`: while the master waits, some thread can go on
that need not be woken first, and each such step brings the end nearer.
-/

namespace NovaCoin

open List Option

variable {T : Type} {check : T → Bool} {t' t : LoopThread T} {fRet : Bool} {st : CheckStep T}

/-! ## What a thread holds -/

namespace LoopThread

def idle : LoopThread T → Nat
  | waiting _ => 1
  | _ => 0

/-- Past its first critical section and not at the end of `Loop`. -/
def registered : LoopThread T → Nat
  | waiting _ => 1
  | executing _ _ _ => 1
  | _ => 0

def todo : LoopThread T → Nat
  | executing nNow _ _ => nNow
  | _ => 0

/-- It will hand in `true`. -/
def Ok (check : T → Bool) : LoopThread T → Prop
  | executing _ fOk rest => fOk = true ∧ ∀ c ∈ rest, check c = true
  | _ => True

/-- A batch is not empty. -/
def Valid : LoopThread T → Prop
  | executing nNow _ _ => 0 < nNow
  | _ => True

/-- How far it is from waiting. -/
def weight : LoopThread T → Nat
  | start => 1
  | waiting fNotified => if fNotified then 1 else 0
  | executing _ _ rest => 2 + rest.length
  | ended => 0

@[simp] theorem notify_notify : t.notify.notify = t.notify := by cases t <;> rfl

@[simp] theorem idle_notify : t.notify.idle = t.idle := by cases t <;> rfl

@[simp] theorem registered_notify : t.notify.registered = t.registered := by cases t <;> rfl

@[simp] theorem todo_notify : t.notify.todo = t.todo := by cases t <;> rfl

@[simp] theorem ok_notify : t.notify.Ok check ↔ t.Ok check := by cases t <;> exact Iff.rfl

@[simp] theorem valid_notify : t.notify.Valid ↔ t.Valid := by cases t <;> exact Iff.rfl

theorem weight_notify_le : t.notify.weight ≤ t.weight + 1 := by
  cases t with
  | waiting fNotified =>
    show 1 ≤ (waiting fNotified : LoopThread T).weight + 1
    omega
  | _ => exact Nat.le_succ _

/-- A thread that holds no checks is counted as idle exactly if it is counted at all. -/
theorem idle_eq_registered (hvalid : t.Valid) (htodo : t.todo = 0) : t.idle = t.registered := by
  cases t with
  | executing nNow fOk rest => exact absurd htodo (Nat.pos_iff_ne_zero.mp hvalid)
  | _ => rfl

end LoopThread

/-! ## Notifications -/

theorem map_notify_notifyOne : ∀ workers : List (LoopThread T),
    (notifyOne workers).map LoopThread.notify = workers.map LoopThread.notify
  | [] => rfl
  | t :: workers => by
    unfold notifyOne
    split
    · simp
    · simp [map_notify_notifyOne workers]

section Notified

variable {l l' : List (LoopThread T)} (h : l'.map LoopThread.notify = l.map LoopThread.notify)

include h

theorem sum_map_of_notified {f : LoopThread T → Nat} (hf : ∀ t, f t.notify = f t) :
    (l'.map f).sum = (l.map f).sum := by
  have hmap : ∀ l : List (LoopThread T), l.map f = (l.map LoopThread.notify).map f := by
    simp [hf]
  rw [hmap l', h, ← hmap l]

theorem forall_mem_iff_of_notified {p : LoopThread T → Prop} (hp : ∀ t, p t.notify ↔ p t) :
    (∀ t ∈ l', p t) ↔ ∀ t ∈ l, p t := by
  have hmap : ∀ l : List (LoopThread T), (∀ t ∈ l, p t) ↔ ∀ t ∈ l.map LoopThread.notify, p t := by
    simp [hp]
  rw [hmap l', h, ← hmap l]

end Notified

/-! ## A turn -/

namespace CCheckQueue

variable {q q' : CCheckQueue T}

theorem queue_add (vChecks : List T) : (q.add vChecks).queue = vChecks.reverse ++ q.queue := by
  simp [add]

theorem nNow_pos : 0 < q.nNow := by
  unfold nNow
  omega

theorem nNow_le (h : q.queue ≠ []) : q.nNow ≤ q.queue.length := by
  have hpos : 0 < q.queue.length := length_pos_iff.mpr h
  have hdiv := Nat.div_le_self q.queue.length (q.nTotal + q.nIdle + 1)
  unfold nNow
  omega

theorem turn_cases (q : CCheckQueue T) (fMaster : Bool) (hquit : q.fQuit = false) :
    (q.queue = [] ∧ fMaster ∧ q.nTodo = 0 ∧
      q.turn fMaster = ({ q with nTotal := q.nTotal - 1, fAllOk := true }, .returns q.fAllOk)) ∨
    (q.queue = [] ∧ ¬ (fMaster ∧ q.nTodo = 0) ∧
      q.turn fMaster = ({ q with nIdle := q.nIdle + 1 }, .waits)) ∨
    (q.queue ≠ [] ∧ q.turn fMaster =
      ({ q with queue := q.queue.drop q.nNow }, .runs (q.queue.take q.nNow) q.fAllOk)) := by
  unfold turn
  by_cases hempty : q.queue = []
  · simp only [hempty, isEmpty_nil, if_true, hquit, Bool.or_false]
    by_cases hend : fMaster ∧ q.nTodo = 0
    · obtain ⟨rfl, htodo⟩ := hend
      exact .inl ⟨trivial, rfl, htodo, by simp [htodo]⟩
    · refine .inr (.inl ⟨trivial, hend, ?_⟩)
      simpa using hend
  · refine .inr (.inr ⟨hempty, ?_⟩)
    simp [hempty]

end CCheckQueue

namespace LoopThread

open CCheckQueue

variable {q q' : CCheckQueue T}

/-- What a thread that gets the mutex hands in: it is counted as neither idle nor busy, and its
result is in `fAllOk`. -/
structure Entered (check : T → Bool) (q q' : CCheckQueue T) (t : LoopThread T) : Prop where
  queue : q'.queue = q.queue
  fQuit : q'.fQuit = q.fQuit
  nIdle : q'.nIdle + t.idle = q.nIdle
  nTotal : q'.nTotal + t.registered = q.nTotal + 1
  nTodo : q'.nTodo + t.todo = q.nTodo
  ok : q'.fAllOk = true ↔ q.fAllOk = true ∧ t.Ok check

theorem enter_eq_some (h : t.enter q = some q') :
    (t = .start ∧ q' = { q with nTotal := q.nTotal + 1 }) ∨
    (∃ fNotified, t = .waiting fNotified ∧ q' = { q with nIdle := q.nIdle - 1 }) ∨
    ∃ nNow fOk, t = .executing nNow fOk [] ∧ q' = q.cleanUp nNow fOk := by
  rcases t with _ | fNotified | ⟨nNow, fOk, _ | ⟨c, rest⟩⟩ | _ <;> cases h
  · exact .inl ⟨rfl, rfl⟩
  · exact .inr (.inl ⟨_, rfl, rfl⟩)
  · exact .inr (.inr ⟨_, _, rfl, rfl⟩)

theorem execute_eq_some (h : t.execute check = some t') :
    ∃ nNow fOk c rest, t = .executing nNow fOk (c :: rest) ∧
      t' = .executing nNow (if fOk then check c else fOk) rest := by
  rcases t with _ | _ | ⟨nNow, fOk, _ | ⟨c, rest⟩⟩ | _ <;> cases h
  exact ⟨nNow, fOk, c, rest, rfl, rfl⟩

theorem entered (check : T → Bool) (h : t.enter q = some q') (hidle : t.idle ≤ q.nIdle)
    (htodo : t.todo ≤ q.nTodo) : Entered check q q' t := by
  rcases enter_eq_some h with ⟨rfl, rfl⟩ | ⟨fNotified, rfl, rfl⟩ | ⟨nNow, fOk, rfl, rfl⟩
  · exact ⟨rfl, rfl, rfl, rfl, rfl, by simp [Ok]⟩
  · exact ⟨rfl, rfl, Nat.sub_add_cancel hidle, rfl, rfl, by simp [Ok]⟩
  · exact ⟨rfl, rfl, rfl, rfl, Nat.sub_add_cancel htodo, by simp [Ok, cleanUp]⟩

/-- What a thread takes with it when it lets the mutex go. -/
structure Turned (q q' : CCheckQueue T) (t : LoopThread T) : Prop where
  fQuit : q'.fQuit = q.fQuit
  nIdle : q'.nIdle = q.nIdle + t.idle
  nTotal : q'.nTotal + 1 = q.nTotal + t.registered
  nTodo : q'.nTodo = q.nTodo
  queue : q'.queue.length + t.todo = q.queue.length
  valid : t.Valid

theorem turned (fMaster : Bool) (hquit : q.fQuit = false) (htotal : 0 < q.nTotal) :
    Turned q (q.turn fMaster).1 (.ofTurn (q.turn fMaster).2) := by
  rcases turn_cases q fMaster hquit with ⟨-, -, -, h⟩ | ⟨-, -, h⟩ | ⟨hne, h⟩ <;> rw [h]
  · exact ⟨rfl, rfl, Nat.sub_add_cancel htotal, rfl, rfl, trivial⟩
  · exact ⟨rfl, rfl, rfl, rfl, rfl, trivial⟩
  · have hle := nNow_le hne
    have hpos := nNow_pos (q := q)
    refine ⟨rfl, rfl, rfl, rfl, ?_, ?_⟩
    · simp only [ofTurn, todo, length_drop, length_take]
      omega
    · simp only [ofTurn, Valid, length_take]
      omega

/-- Unless the thread returns, nothing is lost on the way from the stack to its batch. -/
theorem turned_ok (check : T → Bool) (fMaster : Bool) (hquit : q.fQuit = false)
    (hret : ∀ fRet, (q.turn fMaster).2 ≠ .returns fRet) :
    (q.fAllOk ∧ ∀ c ∈ q.queue, check c) ↔
      ((q.turn fMaster).1.fAllOk ∧ (∀ c ∈ (q.turn fMaster).1.queue, check c) ∧
        (ofTurn (q.turn fMaster).2).Ok check) := by
  rcases turn_cases q fMaster hquit with ⟨-, -, -, h⟩ | ⟨-, -, h⟩ | ⟨-, h⟩
  · exact absurd (congrArg Prod.snd h) (hret _)
  · rw [h]
    simp [ofTurn, Ok]
  · rw [h]
    have hsplit : (∀ c ∈ q.queue, check c) ↔
        (∀ c ∈ q.queue.take q.nNow, check c) ∧ ∀ c ∈ q.queue.drop q.nNow, check c := by
      rw [← forall_mem_append, take_append_drop]
    simp only [ofTurn, Ok, hsplit]
    tauto

end LoopThread

/-! ## The invariant -/

namespace CheckSystem

open LoopThread

def masterThread (s : CheckSystem T) : LoopThread T :=
  match s.master with
  | .outside _ => .ended
  | .inWait t => t

def threads (s : CheckSystem T) : List (LoopThread T) := s.masterThread :: s.workers

theorem threads_of_inWait {s : CheckSystem T} (h : s.master = .inWait t) :
    s.threads = t :: s.workers := by
  rw [threads, masterThread, h]

/-- The counters and the results, by thread. -/
structure Counts (check : T → Bool) (s : CheckSystem T) : Prop where
  fQuit : s.q.fQuit = false
  nIdle : s.q.nIdle = (s.threads.map idle).sum
  nTotal : s.q.nTotal = (s.threads.map registered).sum
  nTodo : s.q.nTodo = s.q.queue.length + (s.threads.map todo).sum
  nTodo_le : s.q.nTodo ≤ s.vAdded.length
  valid : ∀ t ∈ s.threads, t.Valid
  ok : (∀ c ∈ s.vAdded, check c = true) ↔
    (s.q.fAllOk = true ∧ ∀ c ∈ s.q.queue, check c = true) ∧ ∀ t ∈ s.threads, t.Ok check

/-- In `Wait` the master has not ended, and waits only for others to finish. -/
structure Inv (check : T → Bool) (s : CheckSystem T) : Prop extends Counts check s where
  inWait : ∀ t, s.master = .inWait t → t ≠ .ended ∧
    (t = .waiting false → s.q.queue = [] ∧ s.q.nTodo ≠ 0)

variable {s s' : CheckSystem T}

theorem inv_init (check : T → Bool) (nBatchSize nWorkers : Nat) :
    Inv check (init nBatchSize nWorkers) := by
  have hall : ∀ t ∈ (init nBatchSize nWorkers : CheckSystem T).threads, t = .ended ∨ t = .start := by
    simp [threads, masterThread, init]
  have hsum : ∀ f : LoopThread T → Nat, f .ended = 0 → f .start = 0 →
      ((init nBatchSize nWorkers : CheckSystem T).threads.map f).sum = 0 := by
    intro f he hs
    simp [threads, masterThread, init, he, hs]
  refine ⟨⟨rfl, (hsum idle rfl rfl).symm, (hsum registered rfl rfl).symm, ?_, Nat.le_refl 0, ?_, ?_⟩, ?_⟩
  · rw [hsum todo rfl rfl]
    rfl
  · intro t ht
    rcases hall t ht with rfl | rfl <;> trivial
  · refine ⟨fun _ => ⟨⟨rfl, by simp [init, CCheckQueue.new]⟩, fun t ht => ?_⟩,
      fun _ => by simp [init]⟩
    rcases hall t ht with rfl | rfl <;> trivial
  · intro t ht
    cases ht

/-! ## Steps of the master outside of Wait -/

theorem notified_add (s : CheckSystem T) (vChecks : List T) :
    (s.add vChecks).threads.map notify = s.threads.map notify := by
  have hworkers : (s.add vChecks).workers.map notify = s.workers.map notify := by
    simp only [CheckSystem.add]
    split
    · exact map_notify_notifyOne s.workers
    · split
      · simp
      · rfl
  rw [threads, threads, map_cons, hworkers]
  rfl

/-- Notifications change no count. -/
theorem Counts.of_notified (h : Counts check s)
    (hnotified : s'.threads.map notify = s.threads.map notify) (hq : s'.q = s.q)
    (hadded : s'.vAdded = s.vAdded) : Counts check s' where
  fQuit := by rw [hq, h.fQuit]
  nIdle := by rw [hq, sum_map_of_notified hnotified fun _ => idle_notify, h.nIdle]
  nTotal := by rw [hq, sum_map_of_notified hnotified fun _ => registered_notify, h.nTotal]
  nTodo := by rw [hq, sum_map_of_notified hnotified fun _ => todo_notify, h.nTodo]
  nTodo_le := by
    rw [hq, hadded]
    exact h.nTodo_le
  valid := (forall_mem_iff_of_notified hnotified fun _ => valid_notify).mpr h.valid
  ok := by rw [hadded, hq, forall_mem_iff_of_notified hnotified fun _ => ok_notify, h.ok]

theorem Counts.add (h : Counts check s) (vChecks : List T) : Counts check (s.add vChecks) := by
  have hn : Counts check { s.add vChecks with q := s.q, vAdded := s.vAdded } :=
    h.of_notified (notified_add s vChecks) rfl rfl
  refine ⟨h.fQuit, hn.nIdle, hn.nTotal, ?_, ?_, hn.valid, ?_⟩
  · refine (congrArg (· + vChecks.length) hn.nTodo).trans ?_
    simp only [CheckSystem.add, CCheckQueue.queue_add, length_append, length_reverse]
    exact (Nat.add_right_comm ..).trans (congrArg (· + _) (Nat.add_comm ..))
  · have hle := h.nTodo_le
    simp only [CheckSystem.add, CCheckQueue.add, length_append]
    omega
  · have hok := hn.ok
    simp only [CheckSystem.add, CCheckQueue.queue_add, forall_mem_append, mem_reverse]
    tauto

/-- `Wait` is called: a thread that holds nothing takes the place of one that holds nothing. -/
theorem Counts.wait {fRet : Option Bool} (h : Counts check s) (hmaster : s.master = .outside fRet) :
    Counts check { s with master := .inWait .start } := by
  have hthreads : s.threads = .ended :: s.workers := by
    rw [threads, masterThread, hmaster]
  obtain ⟨fQuit, nIdle, nTotal, nTodo, nTodo_le, valid, ok⟩ := h
  rw [hthreads] at nIdle nTotal nTodo valid ok
  refine ⟨fQuit, nIdle, nTotal, nTodo, nTodo_le, ?_, ?_⟩
  · exact forall_mem_cons.mpr ⟨trivial, (forall_mem_cons.mp valid).2⟩
  · rw [ok, forall_mem_cons]
    show _ ↔ _ ∧ ∀ t ∈ LoopThread.start :: s.workers, t.Ok check
    rw [forall_mem_cons]
    exact Iff.rfl

/-! ## Steps in Loop -/

variable {q : CCheckQueue T} {k : Nat}

theorem Counts.entered (h : Counts check s) (hk : s.threads[k]? = some t)
    (henter : t.enter s.q = some q) : Entered check s.q q t ∧ 0 < q.nTotal := by
  have hidle : t.idle ≤ s.q.nIdle := h.nIdle ▸ Tally.le_sum_map idle hk
  have htodo : t.todo ≤ s.q.nTodo := by
    have hle := Tally.le_sum_map todo hk
    rw [h.nTodo]
    omega
  have hin := LoopThread.entered check henter hidle htodo
  have hn := hin.nTotal
  have hle := Tally.le_sum_map registered hk
  rw [← h.nTotal] at hle
  exact ⟨hin, by omega⟩

theorem Counts.turn {fMaster : Bool} (h : Counts check s) (hk : s.threads[k]? = some t)
    (henter : t.enter s.q = some q) (hret : ∀ fRet, (q.turn fMaster).2 ≠ .returns fRet)
    (hq : s'.q = (q.turn fMaster).1)
    (hthreads : s'.threads = s.threads.set k (.ofTurn (q.turn fMaster).2))
    (hadded : s'.vAdded = s.vAdded) : Counts check s' := by
  obtain ⟨hin, htotal⟩ := h.entered hk henter
  have hout := turned (q := q) fMaster (hin.fQuit.trans h.fQuit) htotal
  have hok := turned_ok check fMaster (hin.fQuit.trans h.fQuit) hret
  refine ⟨?_, ?_, ?_, ?_, ?_, ?_, ?_⟩
  · rw [hq, hout.fQuit, hin.fQuit, h.fQuit]
  · have hsum := Tally.sum_map_set (b := ofTurn (q.turn fMaster).2) idle hk
    have h₁ := hin.nIdle
    have h₂ := hout.nIdle
    have h₃ := h.nIdle
    rw [hq, hthreads]
    omega
  · have hsum := Tally.sum_map_set (b := ofTurn (q.turn fMaster).2) registered hk
    have h₁ := hin.nTotal
    have h₂ := hout.nTotal
    have h₃ := h.nTotal
    rw [hq, hthreads]
    omega
  · have hsum := Tally.sum_map_set (b := ofTurn (q.turn fMaster).2) todo hk
    have h₁ := hin.nTodo
    have h₂ := hout.nTodo
    have h₃ := h.nTodo
    have h₄ := hout.queue
    rw [hin.queue] at h₄
    rw [hq, hthreads]
    omega
  · have h₁ := hin.nTodo
    have h₂ := hout.nTodo
    have h₃ := h.nTodo_le
    rw [hq, hadded]
    omega
  · rw [hthreads, Tally.forall_mem_set_iff hk]
    exact ⟨hout.valid, ((Tally.forall_mem_iff hk).mp h.valid).2⟩
  · have h₁ := h.ok
    rw [Tally.forall_mem_iff hk] at h₁
    rw [hadded, hq, hthreads, Tally.forall_mem_set_iff hk]
    rw [hin.ok, hin.queue] at hok
    tauto

structure Returned (check : T → Bool) (s s' : CheckSystem T) (fRet : Bool) : Prop where
  result : fRet = true ↔ ∀ c ∈ s.vAdded, check c = true
  queue : s'.q.queue = []
  todo : ∀ t ∈ s'.workers, t.todo = 0
  counts : Counts check s'

/-- `nTodo` is 0 as the master returns, so every check of the batch has been done. -/
theorem Counts.returned (h : Counts check s) (hmaster : s.master = .inWait t)
    (henter : t.enter s.q = some q) (hret : (q.turn true).2 = .returns fRet) :
    Returned check s { s with q := (q.turn true).1, master := .outside (some fRet), vAdded := [] }
      fRet := by
  have hthreads := threads_of_inWait hmaster
  have hk : s.threads[0]? = some t := by rw [hthreads]; rfl
  obtain ⟨hin, -⟩ := h.entered hk henter
  have hquit : q.fQuit = false := hin.fQuit.trans h.fQuit
  rcases CCheckQueue.turn_cases q true hquit with ⟨hempty, -, hzero, hturn⟩ | ⟨-, -, hturn⟩ | ⟨-, hturn⟩
  · rw [hturn] at hret ⊢
    obtain rfl := CCheckQueue.Turn.returns.inj hret
    -- the checks of the batches are all done
    have hsum : (s.workers.map LoopThread.todo).sum = 0 := by
      have h₁ := hin.nTodo
      have h₂ := h.nTodo
      rw [hthreads, map_cons, sum_cons] at h₂
      omega
    have hworkers : ∀ t ∈ s.workers, t.todo = 0 := by
      intro t ht
      obtain ⟨i, hi⟩ := mem_iff_getElem?.mp ht
      have hle := Tally.le_sum_map LoopThread.todo hi
      omega
    have hvalid : ∀ t ∈ s.workers, t.Valid := by
      have hv := h.valid
      exact (forall_mem_cons.mp hv).2
    have hok : ∀ t ∈ s.workers, t.Ok check := by
      intro t ht
      have htodo := hworkers t ht
      have hv := hvalid t ht
      cases t with
      | executing nNow fOk rest => exact absurd htodo (Nat.pos_iff_ne_zero.mp hv)
      | _ => trivial
    have hqueue : s.q.queue = [] := hin.queue.symm.trans hempty
    refine ⟨?_, hempty, hworkers, ?_⟩
    · rw [h.ok, hin.ok, hthreads, forall_mem_cons, hqueue]
      tauto
    · refine ⟨hquit, ?_, ?_, ?_, ?_, ?_, ?_⟩
      · have h₁ := hin.nIdle
        have h₂ := h.nIdle
        rw [hthreads, map_cons, sum_cons] at h₂
        show q.nIdle = 0 + (s.workers.map LoopThread.idle).sum
        omega
      · have h₁ := hin.nTotal
        have h₂ := h.nTotal
        rw [hthreads, map_cons, sum_cons] at h₂
        show q.nTotal - 1 = 0 + (s.workers.map LoopThread.registered).sum
        omega
      · show q.nTodo = q.queue.length + (0 + (s.workers.map LoopThread.todo).sum)
        rw [hzero, hempty, hsum]
        rfl
      · show q.nTodo ≤ 0
        omega
      · exact forall_mem_cons.mpr ⟨trivial, hvalid⟩
      · refine ⟨fun _ => ⟨⟨rfl, ?_⟩, forall_mem_cons.mpr ⟨trivial, hok⟩⟩, fun _ => by simp⟩
        show ∀ c ∈ q.queue, check c
        rw [hempty]
        simp
  · rw [hturn] at hret
    cases hret
  · rw [hturn] at hret
    cases hret

/-- Running a check changes a thread alone. -/
theorem Counts.execute (h : Counts check s) (hk : s.threads[k]? = some t)
    (hexec : t.execute check = some t') (hq : s'.q = s.q)
    (hthreads : s'.threads = s.threads.set k t') (hadded : s'.vAdded = s.vAdded) :
    Counts check s' := by
  obtain ⟨nNow, fOk, c, rest, rfl, rfl⟩ := execute_eq_some hexec
  have hsum : ∀ f : LoopThread T → Nat,
      f (.executing nNow (if fOk then check c else fOk) rest) = f (.executing nNow fOk (c :: rest)) →
      (s'.threads.map f).sum = (s.threads.map f).sum := by
    intro f hf
    have hset := Tally.sum_map_set (b := .executing nNow (if fOk then check c else fOk) rest) f hk
    rw [hthreads]
    omega
  have hok : LoopThread.Ok check (.executing nNow (if fOk then check c else fOk) rest) ↔
      LoopThread.Ok check (.executing nNow fOk (c :: rest)) := by
    cases fOk <;> simp [LoopThread.Ok]
  refine ⟨?_, ?_, ?_, ?_, ?_, ?_, ?_⟩
  · rw [hq, h.fQuit]
  · rw [hq, hsum idle rfl, h.nIdle]
  · rw [hq, hsum registered rfl, h.nTotal]
  · rw [hq, hsum todo rfl, h.nTodo]
  · rw [hq, hadded]
    exact h.nTodo_le
  · rw [hthreads, Tally.forall_mem_set_iff hk]
    exact (Tally.forall_mem_iff hk).mp h.valid
  · rw [hadded, hq, hthreads, Tally.forall_mem_set_iff hk, h.ok, Tally.forall_mem_iff hk, hok]

@[simp] theorem notifyMaster_frame (fNotify : Bool) : (s.notifyMaster fNotify).q = s.q ∧
    (s.notifyMaster fNotify).vAdded = s.vAdded ∧ (s.notifyMaster fNotify).workers = s.workers := by
  unfold notifyMaster
  split
  · split <;> exact ⟨rfl, rfl, rfl⟩
  · exact ⟨rfl, rfl, rfl⟩

theorem masterThread_notifyMaster (fNotify : Bool) :
    (s.notifyMaster fNotify).masterThread =
      if fNotify then s.masterThread.notify else s.masterThread := by
  unfold notifyMaster masterThread
  cases hmaster : s.master with
  | outside fRet => simp [hmaster, notify]
  | inWait t => cases fNotify <;> simp [hmaster]

theorem notifyMaster_inWait {fNotify : Bool} (h : (s.notifyMaster fNotify).master = .inWait t) :
    ∃ t₀, s.master = .inWait t₀ ∧ t = if fNotify then t₀.notify else t₀ := by
  unfold notifyMaster at h
  cases hmaster : s.master with
  | outside fRet => simp [hmaster] at h
  | inWait t₀ => cases fNotify <;> simp_all

theorem notified_notifyMaster (s : CheckSystem T) (fNotify : Bool) :
    (s.notifyMaster fNotify).threads.map notify = s.threads.map notify := by
  rw [threads, threads, map_cons, masterThread_notifyMaster, (notifyMaster_frame _).2.2]
  cases fNotify <;> simp

theorem Counts.notifyMaster (h : Counts check s) (fNotify : Bool) :
    Counts check (s.notifyMaster fNotify) :=
  h.of_notified (notified_notifyMaster s fNotify) (notifyMaster_frame fNotify).1
    (notifyMaster_frame fNotify).2.1

/-! ## Every step -/

theorem thread_master_iff : s.thread .master = some t ↔ s.master = .inWait t := by
  unfold thread
  cases s.master <;> simp

theorem masterTurn_cases (s : CheckSystem T) (q : CCheckQueue T) :
    (∃ fRet, (q.turn true).2 = .returns fRet ∧ s.masterTurn q = { s with
      q := (q.turn true).1, master := .outside (some fRet), vAdded := [] }) ∨
    ((∀ fRet, (q.turn true).2 ≠ .returns fRet) ∧ s.masterTurn q = { s with
      q := (q.turn true).1, master := .inWait (.ofTurn (q.turn true).2) }) := by
  unfold masterTurn
  split
  · next q' fRet heq => exact .inl ⟨fRet, by rw [heq], by rw [heq]⟩
  · next q' turn hne heq =>
    rw [heq]
    exact .inr ⟨hne, rfl⟩

theorem worker_not_returns (hquit : q.fQuit = false) (fRet : Bool) :
    (q.turn false).2 ≠ .returns fRet := by
  rcases CCheckQueue.turn_cases q false hquit with ⟨-, hm, -⟩ | ⟨-, -, h⟩ | ⟨-, h⟩
  · cases hm
  · rw [h]
    nofun
  · rw [h]
    nofun

theorem Inv.masterTurn (h : Inv check s) (hmaster : s.master = .inWait t)
    (henter : t.enter s.q = some q) : Inv check (s.masterTurn q) := by
  have hthreads := threads_of_inWait hmaster
  have hk : s.threads[0]? = some t := by rw [hthreads]; rfl
  rcases s.masterTurn_cases q with ⟨fRet, hret, heq⟩ | ⟨hnot, heq⟩ <;> rw [heq]
  · exact ⟨(h.returned hmaster henter hret).counts, fun t ht => by cases ht⟩
  · refine ⟨h.turn hk henter hnot rfl ?_ rfl, ?_⟩
    · rfl
    · intro t' ht'
      obtain rfl := Master.inWait.inj ht'
      have hquit : q.fQuit = false := (h.entered hk henter).1.fQuit.trans h.fQuit
      rcases CCheckQueue.turn_cases q true hquit with ⟨-, -, -, hturn⟩ | ⟨hempty, hne, hturn⟩ | ⟨-, hturn⟩
      · rw [hturn] at hnot
        exact absurd rfl (hnot _)
      · rw [hturn]
        exact ⟨by nofun, fun _ => ⟨hempty, fun hzero => hne ⟨rfl, hzero⟩⟩⟩
      · rw [hturn]
        exact ⟨by nofun, by nofun⟩

/-- A worker that ends a batch with no checks left wakes the master. -/
theorem Inv.workerTurn {i : Nat} (h : Inv check s) (hi : s.workers[i]? = some t)
    (henter : t.enter s.q = some q) :
    Inv check ((s.notifyMaster (t.notifiesMaster s.q)).workerTurn q i) := by
  have hcounts := h.notifyMaster (t.notifiesMaster s.q)
  have hk : (s.notifyMaster (t.notifiesMaster s.q)).threads[i + 1]? = some t := by
    simpa [threads] using hi
  have henter' : t.enter (s.notifyMaster (t.notifiesMaster s.q)).q = some q := by
    rwa [(notifyMaster_frame _).1]
  have hin := (hcounts.entered hk henter').1
  rw [(notifyMaster_frame _).1] at hin
  have hquit : q.fQuit = false := hin.fQuit.trans h.fQuit
  refine ⟨hcounts.turn hk henter' (worker_not_returns hquit) rfl rfl rfl, ?_⟩
  intro t' ht'
  obtain ⟨t₀, hmaster, rfl⟩ := notifyMaster_inWait ht'
  obtain ⟨hended, hwaiting⟩ := h.inWait t₀ hmaster
  cases hnotify : t.notifiesMaster s.q with
  | true =>
    cases t₀ with
    | ended => exact absurd rfl hended
    | _ => exact ⟨by nofun, by nofun⟩
  | false =>
    refine ⟨hended, fun hw => ?_⟩
    obtain ⟨hqueue, htodo⟩ := hwaiting hw
    have hout := turned (q := q) false hquit (hcounts.entered hk henter').2
    constructor
    · -- there is nothing to take
      have hlen := hout.queue
      rw [hin.queue, hqueue] at hlen
      exact eq_nil_of_length_eq_zero (Nat.eq_zero_of_add_eq_zero_right hlen)
    · -- the thread that finishes the last check notifies the master
      show (q.turn false).1.nTodo ≠ 0
      rw [hout.nTodo]
      rcases enter_eq_some henter with ⟨rfl, rfl⟩ | ⟨fNotified, rfl, rfl⟩ | ⟨nNow, fOk, rfl, rfl⟩
      · exact htodo
      · exact htodo
      · simpa [notifiesMaster] using hnotify

/-- The step lemma. -/
theorem Inv.step (h : Inv check s) (hstep : s.step check st = some s') :
    Inv check s' := by
  cases st with
  | add vChecks =>
    cases hmaster : s.master with
    | outside fRet =>
      simp only [CheckSystem.step, hmaster, some.injEq] at hstep
      obtain rfl := hstep
      exact ⟨h.toCounts.add vChecks, fun t ht => absurd (hmaster.symm.trans ht) (by nofun)⟩
    | inWait t => simp [CheckSystem.step, hmaster] at hstep
  | wait =>
    cases hmaster : s.master with
    | outside fRet =>
      simp only [CheckSystem.step, hmaster, some.injEq] at hstep
      obtain rfl := hstep
      refine ⟨h.toCounts.wait hmaster, fun t ht => ?_⟩
      obtain rfl := Master.inWait.inj ht
      exact ⟨by nofun, by nofun⟩
    | inWait t => simp [CheckSystem.step, hmaster] at hstep
  | lock id =>
    simp only [CheckSystem.step, CheckSystem.lock, bind_eq_bind, bind_eq_some_iff] at hstep
    obtain ⟨t, ht, q, henter, hs⟩ := hstep
    cases id with
    | master =>
      obtain rfl := some.inj hs
      exact h.masterTurn (thread_master_iff.mp ht) henter
    | worker i =>
      obtain rfl := some.inj hs
      exact h.workerTurn ht henter
  | execute id =>
    simp only [CheckSystem.step, CheckSystem.execute, bind_eq_bind,
      bind_eq_some_iff] at hstep
    obtain ⟨t, ht, t', hexec, hs⟩ := hstep
    cases id with
    | master =>
      obtain rfl := some.inj hs
      have hthreads := threads_of_inWait (thread_master_iff.mp ht)
      refine ⟨h.toCounts.execute (k := 0) (by rw [hthreads]; rfl) hexec rfl (by rw [hthreads]; rfl) rfl,
        fun t'' ht'' => ?_⟩
      obtain rfl := Master.inWait.inj ht''
      obtain ⟨nNow, fOk, c, rest, -, rfl⟩ := execute_eq_some hexec
      exact ⟨by nofun, by nofun⟩
    | worker i =>
      obtain rfl := some.inj hs
      exact ⟨h.toCounts.execute (k := i + 1) (by simpa [threads, thread] using ht) hexec rfl rfl rfl,
        h.inWait⟩

/-! ## Progress -/

def measure (s : CheckSystem T) : Nat :=
  4 * s.q.queue.length + (s.threads.map weight).sum

/-- A step of a thread that need not be woken up first. -/
def Goes (check : T → Bool) (s s' : CheckSystem T) : Prop :=
  ∃ id t, s.thread id = some t ∧ t ≠ .waiting false ∧
    (s.step check (.lock id) = some s' ∨ s.step check (.execute id) = some s')

end CheckSystem

namespace LoopThread

variable {q q' : CCheckQueue T}

theorem turned_weight (fMaster : Bool) (hquit : q.fQuit = false) :
    4 * (q.turn fMaster).1.queue.length + (ofTurn (q.turn fMaster).2).weight ≤
      4 * q.queue.length := by
  rcases CCheckQueue.turn_cases q fMaster hquit with ⟨-, -, -, h⟩ | ⟨-, -, h⟩ | ⟨hne, h⟩ <;> rw [h]
  · exact Nat.le_refl _
  · exact Nat.le_refl _
  · have hle := CCheckQueue.nNow_le hne
    have hpos := CCheckQueue.nNow_pos (q := q)
    simp only [ofTurn, weight, length_drop, length_take]
    omega

/-- What a thread that gets the mutex gives up, also if it has to notify the master. -/
theorem weight_of_enter (h : t.enter q = some q') (hne : t ≠ .waiting false) :
    (if t.notifiesMaster q then 1 else 0) < t.weight := by
  rcases enter_eq_some h with ⟨rfl, -⟩ | ⟨fNotified, rfl, -⟩ | ⟨nNow, fOk, rfl, -⟩
  · exact Nat.zero_lt_one
  · cases fNotified with
    | false => exact absurd rfl hne
    | true => exact Nat.zero_lt_one
  · show (if _ then 1 else 0) < 2
    split <;> omega

theorem weight_execute (h : t.execute check = some t') : t'.weight < t.weight := by
  obtain ⟨nNow, fOk, c, rest, rfl, rfl⟩ := execute_eq_some h
  show 2 + rest.length < 2 + (c :: rest).length
  rw [length_cons]
  omega

theorem exists_enter_or_execute (hended : t ≠ .ended) (hwaiting : t ≠ .waiting false)
    (check : T → Bool) (q : CCheckQueue T) :
    (∃ q', t.enter q = some q') ∨ ∃ t', t.execute check = some t' := by
  cases t with
  | start => exact .inl ⟨_, rfl⟩
  | waiting fNotified => exact .inl ⟨_, rfl⟩
  | executing nNow fOk rest =>
    cases rest with
    | nil => exact .inl ⟨_, rfl⟩
    | cons c rest => exact .inr ⟨_, rfl⟩
  | ended => exact absurd rfl hended

end LoopThread

namespace CheckSystem

open LoopThread

variable {s s' : CheckSystem T}

theorem exists_goes {id : CheckThread} (ht : s.thread id = some t) (hended : t ≠ .ended)
    (hwaiting : t ≠ .waiting false) : ∃ s', Goes check s s' := by
  rcases exists_enter_or_execute hended hwaiting check s.q with ⟨q, hq⟩ | ⟨t', ht'⟩
  · have hlock : ∃ s', s.lock id = some s' := by
      simp only [lock, ht, hq, bind_eq_bind, bind_some]
      cases id <;> exact ⟨_, rfl⟩
    obtain ⟨s', hs'⟩ := hlock
    exact ⟨s', id, t, ht, hwaiting, .inl hs'⟩
  · have hexecute : ∃ s', s.execute check id = some s' := by
      simp only [execute, ht, ht', bind_eq_bind, bind_some]
      cases id <;> exact ⟨_, rfl⟩
    obtain ⟨s', hs'⟩ := hexecute
    exact ⟨s', id, t, ht, hwaiting, .inr hs'⟩

/-- While the master is in `Wait`, the threads never all wait for each other. -/
theorem Inv.exists_step (h : Inv check s) (hmaster : s.master = .inWait t) :
    ∃ s', Goes check s s' := by
  obtain ⟨hended, hwaiting⟩ := h.inWait t hmaster
  by_cases hw : t = .waiting false
  · -- the master waits for a worker with a batch
    obtain ⟨hqueue, htodo⟩ := hwaiting hw
    have hn := h.nTodo
    rw [hqueue, threads_of_inWait hmaster, hw, map_cons, sum_cons] at hn
    have hsum : (s.workers.map todo).sum ≠ 0 := by
      simp only [todo, length_nil] at hn
      omega
    obtain ⟨t', ht', hne⟩ : ∃ t' ∈ s.workers, t'.todo ≠ 0 := by
      by_contra hall
      refine hsum (List.sum_eq_zero_iff_forall_eq_nat.mpr ?_)
      simpa using hall
    obtain ⟨i, hi⟩ := mem_iff_getElem?.mp ht'
    have hthread : s.thread (.worker i) = some t' := hi
    refine exists_goes hthread ?_ ?_ <;> rintro rfl <;> exact hne rfl
  · exact exists_goes (thread_master_iff.mpr hmaster) hended hw

/-- Every step of a thread that need not be woken up brings the end nearer. -/
theorem Inv.measure_lt (h : Inv check s) (hgoes : Goes check s s') : s'.measure < s.measure := by
  obtain ⟨id, t, ht, hwaiting, hstep⟩ := hgoes
  rcases hstep with hstep | hstep
  · simp only [CheckSystem.step, CheckSystem.lock, ht, bind_eq_bind, bind_some,
      bind_eq_some_iff] at hstep
    obtain ⟨q, henter, hs⟩ := hstep
    have hlt := weight_of_enter henter hwaiting
    cases id with
    | master =>
      obtain rfl := some.inj hs
      have hthreads := threads_of_inWait (thread_master_iff.mp ht)
      have hin := (h.entered (k := 0) (by rw [hthreads]; rfl) henter).1
      have hweight := turned_weight (q := q) true (hin.fQuit.trans h.fQuit)
      have hafter : (s.masterTurn q).measure = 4 * (q.turn true).1.queue.length +
            ((ofTurn (q.turn true).2).weight + (s.workers.map weight).sum) := by
        rcases s.masterTurn_cases q with ⟨fRet, hret, heq⟩ | ⟨-, heq⟩
        · rw [heq, hret]
          rfl
        · rw [heq]
          rfl
      rw [hafter, measure, hthreads, map_cons, sum_cons]
      rw [hin.queue] at hweight
      omega
    | worker i =>
      obtain rfl := some.inj hs
      have hi : s.workers[i]? = some t := ht
      have hin := (h.entered (k := i + 1) (by simpa [threads] using hi) henter).1
      have hweight := turned_weight (q := q) false (hin.fQuit.trans h.fQuit)
      have hset := Tally.sum_map_set (b := ofTurn (q.turn false).2) weight hi
      have hnotify : (s.notifyMaster (t.notifiesMaster s.q)).masterThread.weight ≤
          s.masterThread.weight + if t.notifiesMaster s.q then 1 else 0 := by
        rw [masterThread_notifyMaster]
        split
        · exact weight_notify_le
        · exact Nat.le_refl _
      have hafter : ((s.notifyMaster (t.notifiesMaster s.q)).workerTurn q i).measure =
          4 * (q.turn false).1.queue.length +
            ((s.notifyMaster (t.notifiesMaster s.q)).masterThread.weight +
              ((s.workers.set i (ofTurn (q.turn false).2)).map weight).sum) := by
        rw [measure, threads, map_cons, CheckSystem.workerTurn, (notifyMaster_frame _).2.2]
        rfl
      rw [hafter, measure, threads, map_cons, sum_cons]
      rw [hin.queue] at hweight
      omega
  · simp only [CheckSystem.step, CheckSystem.execute, ht, bind_eq_bind, bind_some,
      bind_eq_some_iff] at hstep
    obtain ⟨t', hexec, hs⟩ := hstep
    have hlt := weight_execute hexec
    cases id with
    | master =>
      obtain rfl := some.inj hs
      have hmaster := thread_master_iff.mp ht
      simp only [measure, threads, masterThread, hmaster, map_cons, sum_cons]
      omega
    | worker i =>
      obtain rfl := some.inj hs
      have hi : s.workers[i]? = some t := ht
      have hset := Tally.sum_map_set (b := t') weight hi
      have hmaster : masterThread { s with workers := s.workers.set i t' } = s.masterThread := rfl
      simp only [measure, threads, hmaster, map_cons, sum_cons]
      omega

/-! ## Wait -/

theorem inv_run {nBatchSize nWorkers : Nat} {calls : List (CheckStep T)}
    (hrun : Runs.run (step check) (init nBatchSize nWorkers) calls = some s) : Inv check s :=
  Runs.run_invariant (fun _ _ _ h hstep => h.step hstep) (inv_init check nBatchSize nWorkers) calls hrun

theorem Counts.isIdle (h : Counts check s) (hadded : s.vAdded = []) :
    s.q.nTodo = 0 ∧ s.q.fAllOk ∧ s.q.nTotal = s.q.nIdle ∧ s.q.isIdle := by
  have hzero : s.q.nTodo = 0 := by
    have hle := h.nTodo_le
    rw [hadded] at hle
    exact Nat.le_zero.mp hle
  have hok : s.q.fAllOk := by
    have hall := h.ok
    rw [hadded] at hall
    exact (hall.mp (by simp)).1.1
  have htotal : s.q.nTotal = s.q.nIdle := by
    have hn := h.nTodo
    rw [h.nTotal, h.nIdle]
    refine congrArg sum (map_congr_left fun t ht => (idle_eq_registered (h.valid t ht) ?_).symm)
    obtain ⟨i, hi⟩ := mem_iff_getElem?.mp ht
    have hle := Tally.le_sum_map todo hi
    omega
  exact ⟨hzero, hok, htotal, by simp [CCheckQueue.isIdle, hzero, hok, htotal]⟩

/-- Only the turn that finds nothing to do lets the master return. -/
theorem Inv.returned (h : Inv check s) (hstep : s.step check st = some s')
    (hmaster : s.master = .inWait t) (hret : s'.master = .outside (some fRet)) :
    Returned check s s' fRet ∧ s'.vAdded = [] := by
  cases st with
  | add vChecks => simp [CheckSystem.step, hmaster] at hstep
  | wait => simp [CheckSystem.step, hmaster] at hstep
  | lock id =>
    simp only [CheckSystem.step, CheckSystem.lock, bind_eq_bind, bind_eq_some_iff] at hstep
    obtain ⟨t', ht', q, henter, hs⟩ := hstep
    cases id with
    | master =>
      obtain rfl := some.inj hs
      cases (thread_master_iff.mpr hmaster).symm.trans ht'
      rcases s.masterTurn_cases q with ⟨fRet', hturn, heq⟩ | ⟨-, heq⟩ <;> rw [heq] at hret ⊢ <;>
        cases hret
      exact ⟨h.toCounts.returned hmaster henter hturn, rfl⟩
    | worker i =>
      obtain rfl := some.inj hs
      have hm : (s.notifyMaster (t'.notifiesMaster s.q)).master = .outside (some fRet) := hret
      simp only [CheckSystem.notifyMaster, hmaster] at hm
      split at hm
      · cases hm
      · cases hmaster.symm.trans hm
  | execute id =>
    simp only [CheckSystem.step, CheckSystem.execute, bind_eq_bind,
      bind_eq_some_iff] at hstep
    obtain ⟨t', ht', t'', hexec, hs⟩ := hstep
    cases id with
    | master =>
      obtain rfl := some.inj hs
      cases hret
    | worker i =>
      obtain rfl := some.inj hs
      cases hmaster.symm.trans hret

/-- After any steps: if the next one ends `Wait`, it returns whether all checks since the previous
`Wait` are true, and none of them is left; with nothing added since then, the queue is idle; and
while the master is in `Wait`, some thread can go on without being woken up, but none for ever. -/
theorem wait_run {nBatchSize nWorkers : Nat} {calls : List (CheckStep T)}
    (hrun : Runs.run (step check) (init nBatchSize nWorkers) calls = some s) :
    (∀ st s' t fRet, s.step check st = some s' → s.master = .inWait t →
      s'.master = .outside (some fRet) → (fRet = true ↔ ∀ c ∈ s.vAdded, check c = true) ∧
        s'.q.queue = [] ∧ (∀ t ∈ s'.workers, t.todo = 0) ∧ s'.vAdded = []) ∧
    (s.vAdded = [] →
      s.q.nTodo = 0 ∧ s.q.fAllOk = true ∧ s.q.nTotal = s.q.nIdle ∧ s.q.isIdle = true) ∧
    (∀ t, s.master = .inWait t →
      (∃ s', Goes check s s') ∧ ∀ s', Goes check s s' → s'.measure < s.measure) := by
  have h := inv_run hrun
  refine ⟨?_, h.toCounts.isIdle, fun t ht => ⟨h.exists_step ht, fun s' => h.measure_lt⟩⟩
  intro st s' t fRet hstep hmaster hret
  obtain ⟨hr, hadded⟩ := h.returned hstep hmaster hret
  exact ⟨hr.result, hr.queue, hr.todo, hadded⟩

def sampleRun : List (CheckStep Bool) :=
  [.lock (.worker 0), .add [true, false], .wait, .lock (.worker 0), .lock .master,
    .execute .master, .execute (.worker 0), .lock .master, .lock (.worker 0)]

def sampleDone : CheckSystem Bool :=
  ⟨⟨[], 2, 2, false, 0, false, 128⟩, .inWait (.waiting true), [.waiting false], [true, false]⟩

/-- A batch with a failing check: `Wait` returns false. -/
theorem wait_run_sample : Runs.run (step id) (init 128 1) sampleRun = some sampleDone ∧
    ∃ s', sampleDone.step id (.lock .master) = some s' ∧ s'.master = .outside (some false) ∧
      (false = true ↔ ∀ c ∈ sampleDone.vAdded, id c = true) ∧
      s'.q.queue = [] ∧ (∀ t ∈ s'.workers, t.todo = 0) ∧ s'.vAdded = [] := by
  have hrun : Runs.run (step id) (init 128 1) sampleRun = some sampleDone := rfl
  exact ⟨hrun, _, rfl, rfl, (wait_run hrun).1 (.lock .master) _ (.waiting true) false rfl rfl rfl⟩

end CheckSystem

end NovaCoin
