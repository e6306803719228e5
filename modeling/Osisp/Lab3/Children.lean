import Mathlib
import Osisp.Lab3.ChildStack

namespace Osisp.Lab3

open Osisp.Lib

def cycleIterationsCount : Nat := 5000

/-- The statements of `child_process`. -/
inductive ChildPc where
  /-- `sigaction(SIGUSR1, ...)` in `signal_handlers` -/
  | sigusr1Action
  /-- `sigaction(SIGUSR2, ...)` in `signal_handlers` -/
  | sigusr2Action
  /-- the test of the `for` -/
  | next
  | setupTimer
  /-- the test of the `while` -/
  | test
  | flipA
  | flipB
  | timerDelete
  /-- the test of `print_statistic` -/
  | printStatistic
  | printf
  | exit
  /-- ended, by itself or by a signal -/
  | dead
  deriving DecidableEq

/-- `stat[4]`, `data` and `contin`, and the signals that are pending. A signal that is pending is
not queued again. -/
structure Child where
  pid : Nat
  pc : ChildPc
  i : Nat
  a : Bool
  b : Bool
  contin : Bool
  /-- the handler of the timer is installed -/
  timed : Bool
  stat : Fin 4 → Nat
  /-- how often the handler of the timer has run -/
  alarms : Nat
  isStdoutOpen : Bool
  pending : Signal → Bool
  /-- the counts that were read for `printf` -/
  args : List Nat
  printed : Option (List Nat)

/-- A child after `fork`: it has the parent's `is_stdout_open`. -/
def Child.new (isStdoutOpen : Bool) (pid : Nat) : Child where
  pid
  pc := .sigusr1Action
  i := 0
  a := false
  b := false
  contin := false
  timed := false
  stat := fun _ => 0
  alarms := 0
  isStdoutOpen
  pending := fun _ => false
  args := []
  printed := none

/-- The next statement of a child, of `printf` the next argument or the output. -/
def Child.step (c : Child) : Option Child :=
  match c.pc with
  | .sigusr1Action => some { c with pc := .sigusr2Action }
  | .sigusr2Action => some { c with pc := .next }
  | .next =>
    if c.i < cycleIterationsCount then some { c with pc := .setupTimer, contin := false }
    else some { c with pc := .printStatistic }
  | .setupTimer => some { c with pc := .test, timed := true }
  | .test => some { c with pc := if c.contin then .timerDelete else .flipA }
  | .flipA => some { c with pc := .flipB, a := !c.a }
  | .flipB => some { c with pc := .test, b := !c.b }
  | .timerDelete => some { c with pc := .next, i := c.i + 1 }
  | .printStatistic =>
    if c.isStdoutOpen then some { c with pc := .printf, args := [] }
    else some { c with pc := .exit }
  | .printf =>
    if h : c.args.length < 4 then some { c with args := c.args ++ [c.stat ⟨c.args.length, h⟩] }
    else some { c with pc := .exit, printed := some c.args }
  | .exit => some { c with pc := .dead }
  | .dead => none

/-- `data.a * 2 + data.b * 1` -/
def Child.index (c : Child) : Fin 4 :=
  match c.a, c.b with
  | false, false => 0
  | false, true => 1
  | true, false => 2
  | true, true => 3

/-- `alarm_handler`. A signal of the timer may also come late, when the timer is deleted. -/
def Child.alarm (c : Child) : Option Child :=
  if c.timed = true ∧ c.pc ≠ .dead then
    some { c with
      stat := Function.update c.stat c.index (c.stat c.index + 1)
      contin := true
      alarms := c.alarms + 1 }
  else none

/-- Whether `sigaction` has set a handler for the signal. -/
def Child.handles (c : Child) : Signal → Bool
  | .sigkill => false
  | .sigusr1 => c.pc ≠ .sigusr1Action
  | .sigusr2 => c.pc ≠ .sigusr1Action ∧ c.pc ≠ .sigusr2Action

/-- A pending signal arrives: `sigusr1_handler` or `sigusr2_handler` runs, and without a handler the
child ends. -/
def Child.deliver (c : Child) (signal : Signal) : Option Child :=
  if c.pending signal = true ∧ c.pc ≠ .dead then
    let c := { c with pending := Function.update c.pending signal false }
    if c.handles signal then some { c with isStdoutOpen := signal = .sigusr1 }
    else some { c with pc := .dead }
  else none

/-- What calls of `kill` make pending. -/
def Child.receive (sent : List Sent) (c : Child) : Child :=
  { c with pending := fun signal => c.pending signal || decide (⟨c.pid, signal⟩ ∈ sent) }

/-- The parent, its `is_stdout_open`, and all children it has created. -/
structure Family where
  parent : ParentState
  isStdoutOpen : Bool
  children : List Child

inductive Event where
  | turn (turn : Turn)
  | child (k : Nat)
  | alarm (k : Nat)
  | deliver (k : Nat) (signal : Signal)

/-- `is_stdout_open` of the parent after a command. -/
def flagAfter (isStdoutOpen : Bool) (symbol : Option (List UInt8)) : Bool :=
  match symbol.map commandOf with
  | some (.allowStdoutForAll isAllow) => isAllow
  | _ => isStdoutOpen

/-- A step of one child. -/
def Family.act (f : Family) (k : Nat) (step : Child → Option Child) : Option Family := do
  let c ← f.children[k]?
  let c' ← step c
  return { f with children := f.children.set k c' }

/-- The children see what the parent sends in its turn; a new one is at its beginning. -/
def Family.afterTurn (f : Family) (turn : Turn) (parent : ParentState) : Family :=
  let isStdoutOpen := flagAfter f.isStdoutOpen turn.symbol
  let born := (parent.created.drop f.parent.created.length).map (Child.new isStdoutOpen)
  { parent
    isStdoutOpen
    children := f.children.map (Child.receive (parent.sent.drop f.parent.sent.length)) ++ born }

/-- The parent and its children, in any order. -/
def family : System Family Event where
  init := ⟨.init, true, []⟩
  step f
    | .turn turn => (parent.step f.parent turn).map (f.afterTurn turn)
    | .child k => f.act k Child.step
    | .alarm k => f.act k Child.alarm
    | .deliver k signal => f.act k fun c => c.deliver signal

theorem act_eq {f g : Family} {k : Nat} {step : Child → Option Child} (h : f.act k step = some g) :
    ∃ c c', f.children[k]? = some c ∧ step c = some c' ∧
      g = { f with children := f.children.set k c' } := by
  obtain ⟨c, hc, h⟩ := Option.bind_eq_some_iff.mp h
  obtain ⟨c', hc', h⟩ := Option.bind_eq_some_iff.mp h
  exact ⟨c, c', hc, hc', (Option.some.inj h).symm⟩

/-- The sum of the four counts. -/
def total (stat : Fin 4 → Nat) : Nat := (List.ofFn stat).sum

theorem total_eq (stat : Fin 4 → Nat) : total stat = stat 0 + stat 1 + stat 2 + stat 3 := by
  simp [total, List.ofFn_succ]
  omega

theorem total_update (stat : Fin 4 → Nat) (index : Fin 4) :
    total (Function.update stat index (stat index + 1)) = total stat + 1 := by
  rw [total_eq, total_eq]
  match index with
  | 0 | 1 | 2 | 3 =>
    simp [Function.update]
    omega

/-- The counts that are read and those that are not yet. -/
def allCounts (stat : Fin 4 → Nat) (args : List Nat) : List Nat :=
  args ++ (List.ofFn stat).drop args.length

/-- An alarm changes one count that is still to be read, or none. -/
theorem sum_allCounts_update (stat : Fin 4 → Nat) (index : Fin 4) (args : List Nat) :
    (allCounts stat args).sum ≤
        (allCounts (Function.update stat index (stat index + 1)) args).sum ∧
      (allCounts (Function.update stat index (stat index + 1)) args).sum ≤
        (allCounts stat args).sum + 1 := by
  have hdrop : ∀ n, ((List.ofFn stat).drop n).sum ≤
        ((List.ofFn (Function.update stat index (stat index + 1))).drop n).sum ∧
      ((List.ofFn (Function.update stat index (stat index + 1))).drop n).sum ≤
        ((List.ofFn stat).drop n).sum + 1 := by
    intro n
    match index with
    | 0 | 1 | 2 | 3 =>
      rcases n with _ | _ | _ | _ | n
      all_goals
        simp [List.ofFn_succ, Function.update]
        try omega
  obtain ⟨hgrows, hone⟩ := hdrop args.length
  rw [allCounts, allCounts, List.sum_append, List.sum_append]
  omega

/-- The child is in a round of its `for`, behind `contin = 0`. -/
def ChildPc.inRound : ChildPc → Bool
  | .setupTimer | .test | .flipA | .flipB | .timerDelete => true
  | _ => false

def ChildPc.past : ChildPc → Bool
  | .printStatistic | .printf | .exit => true
  | _ => false

/-- Every round but the present one has had its alarm, and so has the present one if `contin` is
set. -/
structure Counted (c : Child) : Prop where
  sum : total c.stat = c.alarms
  rounds : c.i ≤ c.alarms
  round : c.pc.inRound = true → c.contin = true → c.i + 1 ≤ c.alarms
  ready : c.pc = .timerDelete → c.contin = true
  below : c.i ≤ cycleIterationsCount
  inside : c.pc.inRound = true → c.i < cycleIterationsCount
  past : c.pc.past = true → c.i = cycleIterationsCount

/-- Counts that are printed are those of all rounds. -/
structure Full (i alarms : Nat) (args : List Nat) : Prop where
  all : i = cycleIterationsCount
  least : cycleIterationsCount ≤ args.sum
  most : args.sum ≤ alarms

/-- What is read for `printf`, and what is printed, is full. -/
structure Printing (c : Child) : Prop where
  reading : c.pc = .printf → c.args.length ≤ 4 ∧ Full c.i c.alarms (allCounts c.stat c.args)
  printed : ∀ args, c.printed = some args →
    (c.pc = .exit ∨ c.pc = .dead) ∧ args.length = 4 ∧ Full c.i c.alarms args

theorem new_counted (isStdoutOpen : Bool) (pid : Nat) : Counted (Child.new isStdoutOpen pid) := by
  constructor <;> simp [Child.new, total, ChildPc.inRound, ChildPc.past]

theorem Counted.step {c c' : Child} (h : Counted c) (hstep : c.step = some c') : Counted c' := by
  obtain ⟨hsum, hrounds, hround, hready, hbelow, hinside, hpast⟩ := h
  unfold Child.step at hstep
  cases hpc : c.pc <;> rw [hpc] at hround hready hinside hpast hstep <;> simp only at hstep
  case next =>
    split_ifs at hstep with hmore
    · cases hstep
      exact ⟨hsum, hrounds, by simp, by simp, hbelow, fun _ => hmore, by simp [ChildPc.past]⟩
    · cases hstep
      exact ⟨hsum, hrounds, by simp [ChildPc.inRound], by simp, hbelow, by simp [ChildPc.inRound],
        fun _ => Nat.le_antisymm hbelow (Nat.le_of_not_lt hmore)⟩
  case test =>
    cases hstep
    refine ⟨hsum, hrounds, fun _ => hround rfl, ?_, hbelow, fun _ => hinside rfl, ?_⟩
    · simp only
      split_ifs with hcontin
      · exact fun _ => hcontin
      · simp
    · simp only
      split_ifs <;> simp [ChildPc.past]
  case timerDelete =>
    cases hstep
    have halarm := hround rfl (hready rfl)
    have hmore := hinside rfl
    exact ⟨hsum, halarm, by simp [ChildPc.inRound], by simp, hmore, by simp [ChildPc.inRound],
      by simp [ChildPc.past]⟩
  case printStatistic =>
    split_ifs at hstep <;> cases hstep
    all_goals
      exact ⟨hsum, hrounds, by simp [ChildPc.inRound], by simp, hbelow, by simp [ChildPc.inRound],
        fun _ => hpast rfl⟩
  case printf =>
    split_ifs at hstep <;> cases hstep
    · exact ⟨hsum, hrounds, by simp [ChildPc.inRound], by simp, hbelow,
        by simp [ChildPc.inRound], fun _ => hpast rfl⟩
    · exact ⟨hsum, hrounds, by simp [ChildPc.inRound], by simp, hbelow,
        by simp [ChildPc.inRound], fun _ => hpast rfl⟩
  case dead => cases hstep
  all_goals
    cases hstep
    refine ⟨hsum, hrounds, ?_, by simp, hbelow, ?_, by simp [ChildPc.past]⟩
    all_goals simp_all [ChildPc.inRound]

theorem Counted.alarm {c c' : Child} (h : Counted c) (hstep : c.alarm = some c') : Counted c' := by
  obtain ⟨hsum, hrounds, -, -, hbelow, hinside, hpast⟩ := h
  obtain ⟨⟨-, hpc⟩, hstep⟩ := Option.ite_none_right_eq_some.mp hstep
  cases hstep
  refine ⟨?_, Nat.le_succ_of_le hrounds, fun _ _ => Nat.succ_le_succ hrounds, fun _ => rfl, hbelow,
    hinside, hpast⟩
  rw [total_update, hsum]

theorem Counted.deliver {c c' : Child} {signal : Signal} (h : Counted c)
    (hstep : c.deliver signal = some c') : Counted c' := by
  obtain ⟨hsum, hrounds, hround, hready, hbelow, hinside, hpast⟩ := h
  obtain ⟨⟨-, hpc⟩, hstep⟩ := Option.ite_none_right_eq_some.mp hstep
  dsimp only at hstep
  split_ifs at hstep
  · cases hstep
    exact ⟨hsum, hrounds, hround, hready, hbelow, hinside, hpast⟩
  · cases hstep
    exact ⟨hsum, hrounds, by simp [ChildPc.inRound], by simp, hbelow, by simp [ChildPc.inRound],
      by simp [ChildPc.past]⟩

theorem Counted.receive {c : Child} (h : Counted c) (sent : List Sent) :
    Counted (c.receive sent) :=
  ⟨h.sum, h.rounds, h.round, h.ready, h.below, h.inside, h.past⟩

theorem new_printing (isStdoutOpen : Bool) (pid : Nat) : Printing (Child.new isStdoutOpen pid) := by
  constructor <;> simp [Child.new]

theorem Printing.none (h : Printing c) (hexit : c.pc ≠ .exit) (hdead : c.pc ≠ .dead) :
    c.printed = none := by
  by_contra hsome
  obtain ⟨args, hargs⟩ := Option.ne_none_iff_exists'.mp hsome
  exact (h.printed args hargs).1.elim hexit hdead

theorem allCounts_read (stat : Fin 4 → Nat) {args : List Nat} (hlt : args.length < 4) :
    allCounts stat (args ++ [stat ⟨args.length, hlt⟩]) = allCounts stat args := by
  have hlen : args.length < (List.ofFn stat).length := by
    rw [List.length_ofFn]
    exact hlt
  rw [allCounts, allCounts, List.drop_eq_getElem_cons hlen, List.getElem_ofFn, List.length_append,
    List.append_assoc]
  rfl

theorem Printing.step {c c' : Child} (h : Printing c) (hcounted : Counted c)
    (hstep : c.step = some c') : Printing c' := by
  have hfull : c.pc = .printStatistic → Full c.i c.alarms (List.ofFn c.stat) := by
    intro hpc
    have hall := hcounted.past (by rw [hpc]; rfl)
    have hsum : (List.ofFn c.stat).sum = c.alarms := hcounted.sum
    have hrounds := hcounted.rounds
    exact ⟨hall, by omega, by omega⟩
  unfold Child.step at hstep
  cases hpc : c.pc <;> rw [hpc] at hstep <;> simp only at hstep
  case printStatistic =>
    have hnone := h.none (by simp [hpc]) (by simp [hpc])
    split_ifs at hstep <;> cases hstep
    · exact ⟨fun _ => ⟨Nat.zero_le _, hfull hpc⟩, by simp [hnone]⟩
    · exact ⟨by simp, by simp [hnone]⟩
  case printf =>
    have hnone := h.none (by simp [hpc]) (by simp [hpc])
    obtain ⟨hle, hcounts⟩ := h.reading hpc
    split_ifs at hstep with hlt
    · cases hstep
      refine ⟨fun _ => ⟨?_, ?_⟩, by simp [hnone]⟩
      · rw [List.length_append]
        exact hlt
      · rw [allCounts_read c.stat hlt]
        exact hcounts
    · cases hstep
      have hlen : c.args.length = 4 := by omega
      have hdone : allCounts c.stat c.args = c.args := by
        rw [allCounts, hlen, List.drop_of_length_le (by simp), List.append_nil]
      rw [hdone] at hcounts
      refine ⟨by simp, fun args hargs => ?_⟩
      obtain rfl := Option.some.inj hargs
      exact ⟨.inl rfl, hlen, hcounts⟩
  case exit =>
    cases hstep
    exact ⟨by simp, fun args hargs => ⟨.inr rfl, (h.printed args hargs).2⟩⟩
  case dead => cases hstep
  case next =>
    have hnone := h.none (by simp [hpc]) (by simp [hpc])
    split_ifs at hstep <;> cases hstep
    all_goals exact ⟨by simp, by simp [hnone]⟩
  case test =>
    have hnone := h.none (by simp [hpc]) (by simp [hpc])
    cases hstep
    refine ⟨?_, by simp [hnone]⟩
    simp only
    split_ifs <;> simp
  all_goals
    have hnone := h.none (by simp [hpc]) (by simp [hpc])
    cases hstep
    exact ⟨by simp, by simp [hnone]⟩

theorem Printing.alarm {c c' : Child} (h : Printing c) (hstep : c.alarm = some c') :
    Printing c' := by
  obtain ⟨⟨-, hpc⟩, hstep⟩ := Option.ite_none_right_eq_some.mp hstep
  cases hstep
  refine ⟨fun hprintf => ?_, fun args hargs => ?_⟩
  · obtain ⟨hle, hall, hleast, hmost⟩ := h.reading hprintf
    obtain ⟨hgrows, hone⟩ := sum_allCounts_update c.stat c.index c.args
    exact ⟨hle, hall, Nat.le_trans hleast hgrows, Nat.le_trans hone (Nat.succ_le_succ hmost)⟩
  · obtain ⟨hend, hlen, hall, hleast, hmost⟩ := h.printed args hargs
    exact ⟨hend, hlen, hall, hleast, Nat.le_succ_of_le hmost⟩

theorem Printing.deliver {c c' : Child} {signal : Signal} (h : Printing c)
    (hstep : c.deliver signal = some c') : Printing c' := by
  obtain ⟨⟨-, hpc⟩, hstep⟩ := Option.ite_none_right_eq_some.mp hstep
  dsimp only at hstep
  split_ifs at hstep
  · cases hstep
    exact ⟨h.reading, h.printed⟩
  · cases hstep
    exact ⟨by simp, fun args hargs => ⟨.inr rfl, (h.printed args hargs).2⟩⟩

theorem Printing.receive {c : Child} (h : Printing c) (sent : List Sent) :
    Printing (c.receive sent) := ⟨h.reading, h.printed⟩

/-- What the steps of one child keep for it, the steps of the family keep for all children. -/
theorem step_children {P : Child → Prop} {f g : Family} {event : Event}
    (hstep : ∀ c c', P c → c.step = some c' → P c')
    (halarm : ∀ c c', P c → c.alarm = some c' → P c')
    (hdeliver : ∀ c c' signal, P c → c.deliver signal = some c' → P c')
    (hreceive : ∀ c sent, P c → P (c.receive sent))
    (hnew : ∀ isStdoutOpen pid, P (Child.new isStdoutOpen pid)) (hf : ∀ c ∈ f.children, P c)
    (h : family.step f event = some g) : ∀ c ∈ g.children, P c := by
  have hact : ∀ {k : Nat} {step : Child → Option Child}, (∀ c c', P c → step c = some c' → P c') →
      f.act k step = some g → ∀ c ∈ g.children, P c := by
    intro k step hkeep hk
    obtain ⟨c, c', hc, hc', rfl⟩ := act_eq hk
    intro x hx
    rcases List.mem_or_eq_of_mem_set hx with hx | rfl
    · exact hf x hx
    · exact hkeep c x (hf c (List.mem_of_getElem? hc)) hc'
  cases event with
  | turn turn =>
    obtain ⟨parent, -, rfl⟩ := Option.map_eq_some_iff.mp h
    intro x hx
    rcases List.mem_append.mp hx with hx | hx
    · obtain ⟨c, hc, rfl⟩ := List.mem_map.mp hx
      exact hreceive c _ (hf c hc)
    · obtain ⟨pid, -, rfl⟩ := List.mem_map.mp hx
      exact hnew _ pid
  | child k => exact hact hstep h
  | alarm k => exact hact halarm h
  | deliver k signal => exact hact (fun c c' => hdeliver c c' signal) h

theorem reachable_counted {f : Family} (h : family.Reachable f) :
    ∀ c ∈ f.children, Counted c ∧ Printing c := by
  induction h with
  | init => exact List.forall_mem_nil _
  | step _ _ hstep hf =>
    exact step_children (fun _ _ hc h => ⟨hc.1.step h, hc.2.step hc.1 h⟩)
      (fun _ _ hc h => ⟨hc.1.alarm h, hc.2.alarm h⟩)
      (fun _ _ _ hc h => ⟨hc.1.deliver h, hc.2.deliver h⟩)
      (fun _ sent hc => ⟨hc.1.receive sent, hc.2.receive sent⟩)
      (fun isStdoutOpen pid => ⟨new_counted isStdoutOpen pid, new_printing isStdoutOpen pid⟩)
      hf hstep

def intMax : Nat := 2 ^ 31 - 1

theorem stat_le_total (stat : Fin 4 → Nat) (index : Fin 4) : stat index ≤ total stat := by
  rw [total_eq]
  match index with
  | 0 | 1 | 2 | 3 => omega

/-- Whenever the alarms of the timer come, the four counts of a child add up to its alarms, and it
has had one alarm at least for every round it has ended; no count overflows as long as the alarms
would not. What a child prints after its rounds are four counts that add up to
`CYCLE_ITERATIONS_COUNT` at least, although alarms and signals may come while they are read. -/
theorem statistics_add_up {f : Family} (h : family.Reachable f) {c : Child} (hc : c ∈ f.children) :
    total c.stat = c.alarms ∧ c.i ≤ c.alarms ∧ c.i ≤ cycleIterationsCount ∧
    (c.alarms ≤ intMax → ∀ index, c.stat index ≤ intMax) ∧
    ∀ args, c.printed = some args → c.i = cycleIterationsCount ∧ args.length = 4 ∧
      cycleIterationsCount ≤ args.sum ∧ args.sum ≤ c.alarms := by
  obtain ⟨hcounted, hprinting⟩ := reachable_counted h c hc
  refine ⟨hcounted.sum, hcounted.rounds, hcounted.below, fun hfew index => ?_, fun args hargs => ?_⟩
  · have hle := stat_le_total c.stat index
    rw [hcounted.sum] at hle
    exact Nat.le_trans hle hfew
  · obtain ⟨-, hlen, hfull⟩ := hprinting.printed args hargs
    exact ⟨hfull.all, hlen, hfull.least, hfull.most⟩

section OnlyChild

variable {f : Family} {c c' : Child}

theorem only_step (hf : family.Reachable f) (hc : f.children = [c]) (hstep : c.step = some c') :
    family.Reachable { f with children := [c'] } := by
  have hact : family.step f (.child 0) = some { f with children := [c'] } := by
    change f.act 0 Child.step = _
    simp [Family.act, hc, hstep]
  exact .step hf trivial hact

theorem only_alarm (hf : family.Reachable f) (hc : f.children = [c]) (halarm : c.alarm = some c') :
    family.Reachable { f with children := [c'] } := by
  have hact : family.step f (.alarm 0) = some { f with children := [c'] } := by
    change f.act 0 Child.alarm = _
    simp [Family.act, hc, halarm]
  exact .step hf trivial hact

/-- A child that has its alarm right behind `setup_timer` in each of its first rounds. -/
theorem rounds_reachable (n : Nat) (hn : n ≤ cycleIterationsCount) : ∃ f c, family.Reachable f ∧
    f.children = [c] ∧ c.pc = .next ∧ c.i = n ∧ c.isStdoutOpen = true := by
  induction n with
  | zero =>
    have hplus : family.Reachable _ :=
      .step (a := .turn ⟨some ['+'.toUInt8], some 7⟩) .init trivial rfl
    exact ⟨_, _, only_step (only_step hplus rfl rfl) rfl rfl, rfl, rfl, rfl, rfl⟩
  | succ n ih =>
    obtain ⟨f, c, hf, hc, hpc, hi, hopen⟩ := ih (Nat.le_of_succ_le hn)
    let c₁ : Child := { c with pc := .setupTimer, contin := false }
    have h₁ : c.step = some c₁ := by
      have hmore : c.i < cycleIterationsCount := hi ▸ hn
      rw [Child.step, hpc]
      exact if_pos hmore
    have hf₁ := only_step (only_step hf hc h₁) rfl rfl
    have hf₂ := only_step (only_step (only_alarm hf₁ rfl rfl) rfl rfl) rfl rfl
    exact ⟨_, _, hf₂, rfl, rfl, congrArg (· + 1) hi, hopen⟩

end OnlyChild

/-- A child that goes through all its rounds, and prints. -/
theorem statistics_add_up_printed : ∃ f c args, family.Reachable f ∧ c ∈ f.children ∧
    c.printed = some args ∧ cycleIterationsCount ≤ args.sum ∧ args.sum ≤ c.alarms := by
  obtain ⟨f, c, hf, hc, hpc, hi, hopen⟩ := rounds_reachable cycleIterationsCount (Nat.le_refl _)
  have h₁ : c.step = some { c with pc := .printStatistic } := by
    have hlast : ¬c.i < cycleIterationsCount := hi ▸ Nat.lt_irrefl _
    rw [Child.step, hpc]
    exact if_neg hlast
  have h₂ : Child.step { c with pc := .printStatistic } =
      some { c with pc := .printf, args := [] } := if_pos hopen
  have htwo := only_step (only_step (only_step (only_step hf hc h₁) rfl h₂) rfl rfl) rfl rfl
  have hprinted := only_step (only_step (only_step htwo rfl rfl) rfl rfl) rfl rfl
  have hall := statistics_add_up hprinted List.mem_cons_self
  exact ⟨_, _, _, hprinted, List.mem_cons_self, rfl, (hall.2.2.2.2 _ rfl).2.2⟩

end Osisp.Lab3
