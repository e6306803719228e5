import Osisp.Lib.WorkPool

namespace Osisp.Lib.WorkPool

variable {δ α : Type*}

/-- The job that worker `w` takes in its next step. -/
def State.taking (s : State δ α) (w : Nat) : Option Nat :=
  match s.workers[w]? with
  | some (.bump j) => some j
  | _ => none

/-- The jobs taken in the run of `ws` from `s`, each with its worker, in order. -/
def Pool.takes (P : Pool δ α) : State δ α → List Nat → List (Nat × Nat)
  | _, [] => []
  | s, w :: ws =>
    match P.step s w with
    | none => []
    | some t => ((s.taking w).map (fun j => (w, j))).toList ++ P.takes t ws

variable {P : Pool δ α} {Rep : δ → List α → Prop} {f : α → α} {cells : List α}

theorem Pool.step_next {s t : State δ α} {w : Nat} (h : P.step s w = some t) :
    t.next = s.next + if (s.taking w).isSome then P.stride else 0 := by
  unfold State.taking
  cases Pool.step_move h with
  | plain p q holder hw hpq =>
    rw [hw]
    cases hpq <;> rfl
  | bump j hw =>
    rw [hw]
    rfl
  | store j v hw =>
    rw [hw]
    rfl

/-- The jobs of a run are given out one after the other: number `k`, `k + 1`, ... -/
theorem Inv.takes (hP : P.Maps Rep f cells) (entry : Pc α) (threads : Nat) (data : δ)
    (ws : List Nat) {s t : State δ α} {k : Nat} {cur : List α} (hi : Inv P Rep f cells s k cur)
    (h : (P.system entry threads data).run s ws = some t) :
    ∃ n cur', Inv P Rep f cells t (k + n) cur' ∧
      (P.takes s ws).map Prod.snd = (List.range' k n).map (P.stride * ·) := by
  induction ws generalizing s k cur with
  | nil =>
    obtain rfl : s = t := Option.some.inj h
    exact ⟨0, cur, hi, rfl⟩
  | cons w ws ih =>
    obtain ⟨u, hu, hrest⟩ := Option.bind_eq_some_iff.mp h
    have hu : P.step s w = some u := hu
    obtain ⟨k', cur', hi'⟩ := hi.step hP hu
    obtain ⟨n, cur'', hlast, hjobs⟩ := ih hi' hrest
    have hnext := P.step_next hu
    rw [hi'.next_eq, hi.next_eq] at hnext
    rw [Pool.takes, hu]
    simp only [List.map_append, hjobs]
    cases htake : s.taking w with
    | none =>
      rw [htake] at hnext
      obtain rfl : k' = k := Nat.eq_of_mul_eq_mul_left hP.stride_pos (by simpa using hnext)
      exact ⟨n, cur'', hlast, rfl⟩
    | some j =>
      rw [htake] at hnext
      have hk : k' = k + 1 := by
        apply Nat.eq_of_mul_eq_mul_left hP.stride_pos
        rw [Nat.mul_succ]
        simpa using hnext
      subst hk
      -- the worker stands at the increment, with the number it has read
      have hj : j = P.stride * k := by
        unfold State.taking at htake
        split at htake
        · next hw =>
          cases htake
          exact (hi.fine w _ hw).1
        · cases htake
      refine ⟨n + 1, cur'', ?_, ?_⟩
      · rwa [Nat.add_assoc, Nat.add_comm 1] at hlast
      · rw [List.range'_succ, List.map_cons, hj]
        rfl

theorem Pool.run_workers (entry : Pc α) (threads : Nat) (data : δ) (ws : List Nat)
    {s t : State δ α} (h : (P.system entry threads data).run s ws = some t) :
    t.workers.length = s.workers.length := by
  induction ws generalizing s with
  | nil =>
    obtain rfl : s = t := Option.some.inj h
    rfl
  | cons w ws ih =>
    obtain ⟨u, hu, hrest⟩ := Option.bind_eq_some_iff.mp h
    obtain ⟨q, hq⟩ := P.step_workers hu
    rw [ih hrest, hq, List.length_set]

/-- What a log of takes and the state after it say about the work on `jobs`: they are given out in
order, no two workers have the same one in hand, and where all workers have ended each job was
taken by exactly one of them. -/
structure Distributed (jobs : List Nat) (takes : List (Nat × Nat)) (t : State δ α) : Prop where
  inOrder : takes.map Prod.snd <+: jobs
  apart : ∀ (u v : Nat) (p q : Pc α) (j : Nat), t.workers[u]? = some p → t.workers[v]? = some q →
    p.job = some j → q.job = some j → u = v
  complete : t.workers.all Pc.finished = true →
    takes.map Prod.snd = jobs ∧ ∀ j ∈ jobs, ∃! v, (v, j) ∈ takes

theorem taken_once {takes : List (Nat × Nat)} (hnodup : (takes.map Prod.snd).Nodup) {j : Nat}
    (hj : j ∈ takes.map Prod.snd) : ∃! v, (v, j) ∈ takes := by
  obtain ⟨⟨v, j'⟩, hv, rfl⟩ := List.mem_map.mp hj
  refine ⟨v, hv, fun u hu => ?_⟩
  have hpair : (u, j') = (v, j') := List.inj_on_of_nodup_map hnodup hu hv rfl
  exact congrArg Prod.fst hpair

theorem Inv.all_given {s : State δ α} {k : Nat} {cur : List α} (hi : Inv P Rep f cells s k cur)
    (hall : s.workers.all Pc.finished = true) (hworkers : 0 < s.workers.length) :
    k = cells.length := by
  have hw := List.getElem?_eq_getElem hworkers
  have hend := List.all_eq_true.mp hall _ (List.getElem_mem hworkers)
  have hfine := hi.fine 0 _ hw
  cases hp : s.workers[0] with
  | done =>
    rw [hp] at hfine
    exact hfine
  | _ =>
    rw [hp] at hend
    cases hend

/-- From the start of the workers on, in every run, the jobs are distributed among them. -/
theorem Pool.distributed (hP : P.Maps Rep f cells) {entry : Pc α}
    (hentry : entry = .arriveStart ∨ entry = .lock) {threads : Nat} (hthreads : 0 < threads)
    {data : δ} (hdata : Rep data cells) (ws : List Nat) {t : State δ α}
    (h : (P.system entry threads data).run (start entry threads data) ws = some t) :
    Distributed ((List.range cells.length).map (P.stride * ·))
      (P.takes (start entry threads data) ws) t := by
  obtain ⟨n, cur, hi, hjobs⟩ := (inv_start hentry threads hdata).takes hP entry threads data ws h
  rw [Nat.zero_add] at hi
  rw [← List.range_eq_range'] at hjobs
  have hbound := hi.bound
  constructor
  · rw [hjobs]
    apply List.IsPrefix.map
    rw [← Nat.add_sub_of_le hbound, List.range_add]
    exact List.prefix_append _ _
  · intro u v p q j hu hv hp hq
    by_contra hne
    have htwo := add_le_tally (Pc.claims j) hne hu hv
    rw [Pc.claims_of_job hp, Pc.claims_of_job hq] at htwo
    have hone := hi.unique j
    omega
  · intro hall
    have hlen : t.workers.length = threads := by
      rw [P.run_workers entry threads data ws h]
      exact List.length_replicate
    obtain rfl := hi.all_given hall (by omega)
    refine ⟨hjobs, fun j hj => taken_once ?_ (hjobs ▸ hj)⟩
    rw [hjobs]
    apply List.Nodup.map _ List.nodup_range
    intro a b hab
    exact Nat.eq_of_mul_eq_mul_left hP.stride_pos hab

end Osisp.Lib.WorkPool
