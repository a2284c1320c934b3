/-
Every schedule comes to the same.

The threads of a crew run one operation at a time, in the order of a schedule.
When different threads are about different keys, but for counters that all of
them only increment, the order does not matter: if all threads finish, each has
the answers that it has when the threads run one after another, the maps list
the same entries, and no increment is lost.  The tries may differ in shape, and
an increment may have begun again any number of times.

Two facts carry this.  A step of a crew does a deed or puts it off
(`Job.step_cases`), so by the theory of deeds a finished schedule ends as the
threads would in turn (`Crew.Fit.run_inTurn`).  And whatever the threads do in
turn, the schedule that runs one after another really does
(`Crew.run_oneByOne`).

Main statement: `Crew.schedules_agree`.
-/
import NibbleTrie.Key
import NibbleTrie.Proofs.Deed
import NibbleTrie.Proofs.Moment

namespace NibbleTrie

variable {κ : Type u} {ν : Type v} [DecidableEq κ] [Datum ν] {m : TrieMap κ ν} {k : κ}
  {amount : Int64} {V W : Values κ ν}

/-! ## Steps of a job -/

omit [DecidableEq κ] in
theorem Probe.on_get (k : κ) (v? : Option ν) :
    (Probe.get? k).plan.on v? = (.ok (.value? v?), v?) := by
  cases v? <;> rfl

omit [DecidableEq κ] in
/-- A compare-and-swap stores if it finds a value equal to the one that it expects. -/
theorem Probe.on_compareAndSwap (k : κ) (old new : ν) (v? : Option ν) :
    (Probe.compareAndSwap k old new).plan.on v? =
      if v?.any (· == old) then (.ok (.flag true), some new) else (.ok (.flag false), v?) := by
  cases v? with
  | none => rfl
  | some v => cases h : v == old <;> simp [Plan.on, plan, judge, Edit.value, h]

namespace Job

theorem step_sound (S : m.Sound) (job : Job κ ν) : (job.step m).state.Sound := by
  cases job with
  | call op => exact (TrieMap.apply_refines S op).sound
  | increment k _ => exact (TrieMap.apply_refines S (.probe (.get? k))).sound
  | commit k _ seen => exact (TrieMap.apply_refines S (.probe (.compareAndSwap k seen _))).sound

theorem step_call (S : m.Sound) {op : Op κ ν} {plan : Plan κ ν} (hplan : op.plan? = some plan) :
    ((call op).step m).result = (plan.on (m.values plan.key)).1.map .inr ∧
      ((call op).step m).state.values =
        Function.update m.values plan.key (plan.on (m.values plan.key)).2 := by
  obtain ⟨hresult, hvalues⟩ := TrieMap.apply_values S hplan rfl
  refine ⟨?_, hvalues⟩
  rw [← hresult]
  rfl

/-- The first half of an increment gives up if the counter is absent, and changes nothing. -/
theorem step_increment (S : m.Sound) (k : κ) (amount : Int64) :
    ((increment k amount).step m).result = .ok (match m.values k with
      | none => .inr (.flag false)
      | some c => .inl (commit k amount c)) ∧
    ((increment k amount).step m).state.values = m.values := by
  obtain ⟨hresult, hvalues⟩ := TrieMap.probe_values S (.get? k) k rfl
  rw [Probe.on_get] at hresult hvalues
  refine ⟨?_, hvalues.trans (Function.update_eq_self _ _)⟩
  simp only [step, Effect.map, hresult, Except.map]
  cases m.values k <;> rfl

/-- The second half of an increment stores the sum if it finds the counter as it was loaded, and
else begins again. -/
theorem step_commit (S : m.Sound) (k : κ) (amount : Int64) (seen : ν) :
    if (m.values k).any (· == seen) then
      ((commit k amount seen).step m).result = .ok (.inr (.flag true)) ∧
        ((commit k amount seen).step m).state.values =
          Function.update m.values k (some (Datum.ofInt (Datum.toInt seen + amount)))
    else
      ((commit k amount seen).step m).result = .ok (.inl (increment k amount)) ∧
        ((commit k amount seen).step m).state.values = m.values := by
  obtain ⟨hresult, hvalues⟩ := TrieMap.probe_values S
    (.compareAndSwap k seen (Datum.ofInt (Datum.toInt seen + amount))) k rfl
  rw [Probe.on_compareAndSwap] at hresult hvalues
  simp only [step, Effect.map, hresult]
  split
  case isTrue h =>
    rw [if_pos h] at hvalues
    exact ⟨rfl, hvalues⟩
  case isFalse h =>
    rw [if_neg h] at hvalues
    exact ⟨rfl, hvalues.trans (Function.update_eq_self _ _)⟩

variable [LawfulDatum ν] {job : Job κ ν} {d : Deed κ ν}

/-- A step of a job does its deed, or puts it off and changes no value. -/
theorem step_cases (S : m.Sound) (hjob : job.deed? = some d) :
    (∃ job', (job.step m).result = .ok (.inl job') ∧ job'.deed? = some d ∧
      (job.step m).state.values = m.values) ∨
    ∃ answer, (job.step m).result = answer.map .inr ∧
      d.Does m.values answer (job.step m).state.values := by
  cases job with
  | call op =>
    obtain ⟨plan, hplan, rfl⟩ := Option.map_eq_some_iff.mp hjob
    obtain ⟨hresult, hvalues⟩ := step_call S hplan
    exact .inr ⟨_, hresult, _, .act, hvalues⟩
  | increment k amount =>
    obtain rfl := Option.some.inj hjob
    obtain ⟨hresult, hvalues⟩ := step_increment S k amount
    cases hv : m.values k with
    | none =>
      rw [hv] at hresult
      refine .inr ⟨.ok (.flag false), hresult, ?_⟩
      rw [hvalues]
      exact .missed hv
    | some c =>
      rw [hv] at hresult
      exact .inl ⟨_, hresult, rfl, hvalues⟩
  | commit k amount seen =>
    obtain rfl := Option.some.inj hjob
    have h := step_commit S k amount seen
    split at h
    case isTrue hseen =>
      obtain ⟨v, hv, heq⟩ := (Option.any_eq_true _ _).mp hseen
      refine .inr ⟨.ok (.flag true), h.1, ?_⟩
      rw [h.2, ← LawfulDatum.toInt_eq heq]
      exact .raised hv (LawfulDatum.beq_self heq)
    case isFalse => exact .inl ⟨_, h.1, rfl, h.2⟩

/-- True of jobs that have not loaded anything yet. -/
def isFresh : Job κ ν → Bool
  | call _ | increment _ _ => true
  | commit _ _ _ => false

end Job

/-! ## Steps of a crew -/

/-- A thread after a step of its first job, with the jobs and the answers behind that. -/
def Thread.after (jobs : List (Job κ ν)) (replies : List (Reply κ ν)) :
    Except Fault (Job κ ν ⊕ Reply κ ν) → Thread κ ν
  | .ok (.inl job) => ⟨job :: jobs, replies⟩
  | .ok (.inr reply) => ⟨jobs, reply :: replies⟩
  | .error _ => ⟨[], replies⟩

namespace Crew

variable {left right ended : List (Thread κ ν)} {job : Job κ ν} {jobs : List (Job κ ν)}
  {replies new : List (Reply κ ν)}

theorem step_working :
    (⟨m, left ++ ⟨job :: jobs, replies⟩ :: right⟩ : Crew κ ν).step left.length =
      ⟨(job.step m).state, left ++ Thread.after jobs replies (job.step m).result :: right⟩ := by
  rcases h : job.step m with ⟨result | result, m', _⟩
  · simp [step, Thread.step, Effect.map, Except.map, Thread.after, h]
  · cases result <;> simp [step, Thread.step, Effect.map, Except.map, Thread.after, h]

theorem step_idle : (⟨m, left ++ ⟨[], replies⟩ :: right⟩ : Crew κ ν).step left.length =
    ⟨m, left ++ ⟨[], replies⟩ :: right⟩ := by
  simp [step, Thread.step, Effect.pure]

/-- A step is a step of some thread's first job, or nothing. -/
theorem step_cases (c : Crew κ ν) (i : Nat) : c.step i = c ∨
    ∃ m left job jobs replies right, c = ⟨m, left ++ ⟨job :: jobs, replies⟩ :: right⟩ ∧
      i = left.length := by
  obtain ⟨m, threads⟩ := c
  by_cases hi : i < threads.length
  · obtain ⟨left, ⟨jobs, replies⟩, right, rfl, rfl⟩ : ∃ left t right, threads = left ++ t :: right ∧
        left.length = i := by
      have hset : ∃ left right, threads = left ++ threads[i] :: right ∧ left.length = i ∧
          threads.set i threads[i] = left ++ threads[i] :: right := List.exists_of_set hi
      obtain ⟨left, right, hsplit, hlen, _⟩ := hset
      exact ⟨left, _, right, hsplit, hlen⟩
    cases jobs with
    | nil => exact .inl step_idle
    | cons job jobs => exact .inr ⟨m, left, job, jobs, replies, right, rfl, rfl⟩
  · refine .inl ?_
    simp only [step, List.getElem?_eq_none (Nat.le_of_not_lt hi)]

/-! ### One after another

The schedule `oneByOne` gives a thread two steps for each of its jobs.  That is enough for a job
that nobody is in the way of; what is left over is idled away. -/

theorem run_append (c : Crew κ ν) (schedule rest : List Nat) :
    c.run (schedule ++ rest) = (c.run schedule).run rest := List.foldl_append

theorem run_idle (n : Nat) :
    (⟨m, left ++ ⟨[], replies⟩ :: right⟩ : Crew κ ν).run (List.replicate n left.length) =
      ⟨m, left ++ ⟨[], replies⟩ :: right⟩ := by
  induction n with
  | zero => rfl
  | succ n ih =>
    show ((⟨m, left ++ ⟨[], replies⟩ :: right⟩ : Crew κ ν).step left.length).run _ = _
    rw [step_idle, ih]

/-- In two steps of a thread at most its first job has its answer, whatever else there is to do. -/
def Settles (m m' : TrieMap κ ν) (job : Job κ ν) (answer : Except Fault (Reply κ ν)) : Prop :=
  ∃ cost ≤ 2, ∀ left jobs replies right,
    (⟨m, left ++ ⟨job :: jobs, replies⟩ :: right⟩ : Crew κ ν).run
        (List.replicate cost left.length) =
      ⟨m', left ++ Thread.after jobs replies (answer.map .inr) :: right⟩

variable {answer : Except Fault (Reply κ ν)}

theorem Settles.of_step (h : (job.step m).result = answer.map .inr) :
    Settles m (job.step m).state job answer := by
  refine ⟨1, by omega, fun left jobs replies right => ?_⟩
  rw [← h]
  exact step_working

theorem Settles.of_steps {job' : Job κ ν} (h : (job.step m).result = .ok (.inl job'))
    (h' : (job'.step (job.step m).state).result = answer.map .inr) :
    Settles m (job'.step (job.step m).state).state job answer := by
  refine ⟨2, by omega, fun left jobs replies right => ?_⟩
  show ((⟨m, left ++ ⟨job :: jobs, replies⟩ :: right⟩ : Crew κ ν).step _).step _ = _
  rw [step_working, h, ← h']
  exact step_working

/-- A job that has not loaded anything does its deed at once, or with a load before it. -/
theorem exists_settles {d : Deed κ ν} (S : m.Sound) (hfresh : job.isFresh = true)
    (hd : job.deed? = some d) (hdoes : d.Does m.values answer V) :
    ∃ m', m'.Sound ∧ m'.values = V ∧ Settles m m' job answer := by
  cases job with
  | call op =>
    obtain ⟨plan, hplan, rfl⟩ := Option.map_eq_some_iff.mp hd
    obtain ⟨hresult, hvalues⟩ := Job.step_call S hplan
    obtain ⟨rfl, rfl⟩ := hdoes.unique ⟨_, .act, rfl⟩
    exact ⟨_, Job.step_sound S (.call op), hvalues, .of_step hresult⟩
  | increment k amount =>
    obtain rfl := Option.some.inj hd
    obtain ⟨hresult, hvalues⟩ := Job.step_increment S k amount
    have S₁ := Job.step_sound S (.increment k amount)
    cases hv : m.values k with
    | none =>
      rw [hv] at hresult
      obtain ⟨rfl, rfl⟩ := hdoes.unique (.missed hv)
      exact ⟨_, S₁, hvalues, .of_step hresult⟩
    | some c =>
      rw [hv] at hresult
      have hc : (c == c) = true := hdoes.beq_self hv
      obtain ⟨rfl, rfl⟩ := hdoes.unique (.raised hv hc)
      have hcommit := Job.step_commit S₁ k amount c
      rw [if_pos (by simp [hvalues, hv, hc]), hvalues] at hcommit
      exact ⟨_, Job.step_sound S₁ (.commit k amount c), hcommit.2, .of_steps hresult hcommit.1⟩
  | commit => cases hfresh

/-- A thread that is given two steps for each of its jobs gets them done. -/
theorem run_thread (left right : List (Thread κ ν)) (replies : List (Reply κ ν)) {n : Nat}
    (S : m.Sound) (D : Done jobs m.values new W) (hfresh : ∀ job ∈ jobs, job.isFresh = true)
    (hn : 2 * jobs.length ≤ n) :
    ∃ m', m'.Sound ∧ m'.values = W ∧
      (⟨m, left ++ ⟨jobs, replies⟩ :: right⟩ : Crew κ ν).run (List.replicate n left.length) =
        ⟨m', left ++ ⟨[], new.reverse ++ replies⟩ :: right⟩ := by
  generalize hV : m.values = V at D
  induction D generalizing m n replies with
  | nil => exact ⟨m, S, hV, run_idle n⟩
  | @answered job jobs d V reply V' new W hd hdoes D ih =>
    subst hV
    obtain ⟨m₁, S₁, hV₁, cost, hcost, hrun₁⟩ :=
      exists_settles S (hfresh job List.mem_cons_self) hd hdoes
    rw [List.length_cons] at hn
    obtain ⟨m', S', hW, hrun⟩ := ih (reply :: replies) S₁
      (fun job h => hfresh job (List.mem_cons_of_mem _ h))
      (show 2 * jobs.length ≤ n - cost by omega) hV₁
    refine ⟨m', S', hW, ?_⟩
    rw [show n = cost + (n - cost) by omega, List.replicate_add, run_append, hrun₁]
    refine hrun.trans ?_
    rw [List.reverse_cons, List.append_assoc, List.singleton_append]
  | failed hd hdoes =>
    subst hV
    obtain ⟨m₁, S₁, hV₁, cost, hcost, hrun₁⟩ :=
      exists_settles S (hfresh _ List.mem_cons_self) hd hdoes
    rw [List.length_cons] at hn
    refine ⟨m₁, S₁, hV₁, ?_⟩
    rw [show n = cost + (n - cost) by omega, List.replicate_add, run_append, hrun₁]
    exact run_idle _

/-- What threads do in turn, they do by the schedule that runs them one after another. -/
theorem run_oneByOne (left : List (Thread κ ν)) {rest : List (Thread κ ν)} (S : m.Sound)
    (H : InTurn rest m.values ended W)
    (hfresh : ∀ t ∈ rest, ∀ job ∈ t.jobs, job.isFresh = true) :
    ∃ m', m'.Sound ∧ m'.values = W ∧
      (⟨m, left ++ rest⟩ : Crew κ ν).run ((rest.zipIdx left.length).flatMap fun (t, i) =>
        List.replicate t.steps i) = ⟨m', left ++ ended⟩ := by
  generalize hV : m.values = V at H
  induction H generalizing m left with
  | nil => exact ⟨m, S, hV, rfl⟩
  | @cons t rest V new V' ended W D _ ih =>
    subst hV
    obtain ⟨m₁, S₁, hV₁, hrun₁⟩ := run_thread left rest t.replies S D
      (hfresh t List.mem_cons_self) (Nat.le_refl _)
    obtain ⟨m', S', hW, hrun⟩ := ih (left ++ [⟨[], new.reverse ++ t.replies⟩]) S₁
      (fun t h => hfresh t (List.mem_cons_of_mem _ h)) hV₁
    refine ⟨m', S', hW, ?_⟩
    rw [List.zipIdx_cons, List.flatMap_cons, run_append]
    simp only [List.length_append, List.length_singleton, List.append_assoc,
      List.singleton_append] at hrun
    have hrun₁ : (⟨m, left ++ t :: rest⟩ : Crew κ ν).run (List.replicate t.steps left.length) =
        ⟨m₁, left ++ ⟨[], new.reverse ++ t.replies⟩ :: rest⟩ := hrun₁
    rw [hrun₁]
    exact hrun

/-! ### In any order -/

/-- A crew on a map in good order, whose jobs are about one key each, and in which what a thread has
to do commutes with what the threads before it have to do. -/
structure Fit (c : Crew κ ν) : Prop where
  sound : c.map.Sound
  keyed : ∀ t ∈ c.threads, ∀ job ∈ t.jobs, ∃ d, job.deed? = some d
  apart : c.threads.Pairwise fun t t' => ∀ job ∈ t'.jobs, ∀ d, job.deed? = some d →
    d.CommutesAll t.jobs

/-- The deeds of a thread that has done something, or nothing, are among those that it had. -/
theorem Fit.replace {t t' : Thread κ ν} {m' : TrieMap κ ν}
    (F : (⟨m, left ++ t :: right⟩ : Crew κ ν).Fit) (S : m'.Sound)
    (h : ∀ job' ∈ t'.jobs, ∃ job ∈ t.jobs, job'.deed? = job.deed?) :
    (⟨m', left ++ t' :: right⟩ : Crew κ ν).Fit where
  sound := S
  keyed := by
    have hkeyed := F.keyed
    simp only [List.mem_append, List.mem_cons] at hkeyed ⊢
    rintro u (hu | rfl | hu) job' hjob'
    · exact hkeyed u (.inl hu) job' hjob'
    · obtain ⟨job, hjob, hdeed⟩ := h job' hjob'
      rw [hdeed]
      exact hkeyed t (.inr (.inl rfl)) job hjob
    · exact hkeyed u (.inr (.inr hu)) job' hjob'
  apart := by
    obtain ⟨hleft, hmid, hcross⟩ := List.pairwise_append.mp F.apart
    obtain ⟨hhead, hright⟩ := List.pairwise_cons.mp hmid
    refine List.pairwise_append.mpr ⟨hleft, List.pairwise_cons.mpr ⟨?_, hright⟩, ?_⟩
    · intro u hu job hjob d hd job' hjob' d' hd'
      obtain ⟨job₀, hjob₀, hdeed⟩ := h job' hjob'
      exact hhead u hu job hjob d hd job₀ hjob₀ d' (hdeed.symm.trans hd')
    · intro u hu u' hu'
      rcases List.mem_cons.mp hu' with rfl | hu'
      · intro job' hjob' d' hd'
        obtain ⟨job₀, hjob₀, hdeed⟩ := h job' hjob'
        exact hcross u hu t List.mem_cons_self job₀ hjob₀ d' (hdeed.symm.trans hd')
      · exact hcross u hu u' (List.mem_cons_of_mem _ hu')

variable [LawfulDatum ν]

/-- After a step the threads still end as they would in turn before it. -/
theorem Fit.step {c : Crew κ ν} (F : c.Fit) (i : Nat) :
    (c.step i).Fit ∧ ∀ {ended W}, InTurn (c.step i).threads (c.step i).map.values ended W →
      InTurn c.threads c.map.values ended W := by
  rcases c.step_cases i with hidle | ⟨m, left, job, jobs, replies, right, rfl, rfl⟩
  · rw [hidle]
    exact ⟨F, fun H => H⟩
  · rw [step_working]
    have hmem : (⟨job :: jobs, replies⟩ : Thread κ ν) ∈ left ++ ⟨job :: jobs, replies⟩ :: right :=
      List.mem_append_right _ List.mem_cons_self
    obtain ⟨d, hd⟩ := F.keyed _ hmem job List.mem_cons_self
    have S := Job.step_sound F.sound job
    rcases Job.step_cases F.sound hd with ⟨job', hresult, hd', hvalues⟩ | ⟨answer, hresult, hdoes⟩
    · rw [hresult]
      refine ⟨F.replace S ?_, ?_⟩
      · intro job₁ hjob₁
        rcases List.mem_cons.mp hjob₁ with rfl | hjob₁
        · exact ⟨job, List.mem_cons_self, hd'.trans hd.symm⟩
        · exact ⟨job₁, List.mem_cons_of_mem _ hjob₁, rfl⟩
      · intro ended W H
        simp only [hvalues] at H
        exact H.again (hd.trans hd'.symm)
    · have hbegins : Thread.Begins d ⟨job :: jobs, replies⟩ answer
          (Thread.after jobs replies (job.step m).result) := by
        rw [hresult]
        cases answer with
        | ok reply => exact .answered hd
        | error fault => exact .failed hd
      refine ⟨F.replace S ?_, fun H => H.defer hbegins hdoes ?_⟩
      · intro job₁ hjob₁
        generalize Thread.after jobs replies (job.step m).result = t' at hbegins hjob₁
        cases hbegins with
        | answered => exact ⟨job₁, List.mem_cons_of_mem _ hjob₁, rfl⟩
        | failed => cases hjob₁
      · intro u hu
        have hcross := (List.pairwise_append.mp F.apart).2.2 u hu _ List.mem_cons_self
        exact hcross job List.mem_cons_self d hd

/-- A schedule by which all threads finish ends as the threads would in turn. -/
theorem Fit.run_inTurn {c : Crew κ ν} (F : c.Fit) {schedule : List Nat}
    (h : (c.run schedule).isFinished = true) :
    (c.run schedule).map.Sound ∧ InTurn c.threads c.map.values (c.run schedule).threads
      (c.run schedule).map.values := by
  induction schedule generalizing c with
  | nil =>
    refine ⟨F.sound, .rest fun t ht => ?_⟩
    simpa using List.all_eq_true.mp h t ht
  | cons i schedule ih =>
    obtain ⟨F', hbefore⟩ := F.step i
    obtain ⟨S, H⟩ := ih F' h
    exact ⟨S, hbefore H⟩

end Crew

/-! ## Independent threads -/

/-- A job that a thread may be given: an operation on one key, which is not shared, or an increment
of any key. -/
def Job.Allowed (shared : κ → Prop) : Job κ ν → Prop
  | .call op => ∃ plan, op.plan? = some plan ∧ ¬ shared plan.key
  | .increment _ _ => True
  | .commit _ _ _ => False

/-- Work for threads that have only counters in common: different threads have jobs on one key only
if it is shared, and all that they do to a shared key is to increment it. -/
structure Independent (shared : κ → Prop) (work : List (List (Job κ ν))) : Prop where
  allowed : ∀ jobs ∈ work, ∀ job ∈ jobs, job.Allowed shared
  apart : work.Pairwise fun jobs jobs' => ∀ job ∈ jobs, ∀ job' ∈ jobs', ∀ k,
    job.key? = some k → job'.key? = some k → shared k

variable {job : Job κ ν} {d : Deed κ ν} {shared : κ → Prop} {work : List (List (Job κ ν))}

omit [DecidableEq κ] in
/-- An allowed job has a deed, which raises the counter if its key is shared. -/
theorem Job.Allowed.exists_deed (h : job.Allowed shared) :
    job.isFresh = true ∧ ∃ d, job.deed? = some d ∧ (shared d.key → d.isRaise = true) := by
  cases job with
  | call op =>
    obtain ⟨plan, hplan, hshared⟩ := h
    refine ⟨rfl, .act plan, ?_, fun h => absurd h hshared⟩
    simp only [deed?, hplan, Option.map_some]
  | increment k amount => exact ⟨rfl, .raise k amount, rfl, fun _ => rfl⟩
  | commit => exact h.elim

namespace Independent

omit [DecidableEq κ] in
theorem isRaise (I : Independent shared work) {jobs : List (Job κ ν)} (hjobs : jobs ∈ work)
    (hjob : job ∈ jobs) (hd : job.deed? = some d) (hk : shared d.key) : d.isRaise = true := by
  obtain ⟨_, d', hd', h⟩ := (I.allowed jobs hjobs job hjob).exists_deed
  obtain rfl := Option.some.inj (hd.symm.trans hd')
  exact h hk

/-- Threads with independent work are fit to run in any order. -/
theorem fit (I : Independent shared work) (S : m.Sound) :
    (⟨m, work.map fun jobs => ⟨jobs, []⟩⟩ : Crew κ ν).Fit where
  sound := S
  keyed t ht job hjob := by
    obtain ⟨jobs, hjobs, rfl⟩ := List.mem_map.mp ht
    obtain ⟨_, d, hd, _⟩ := (I.allowed jobs hjobs job hjob).exists_deed
    exact ⟨d, hd⟩
  apart := by
    refine List.pairwise_map.mpr (I.apart.imp_of_mem ?_)
    intro jobs jobs' hjobs hjobs' h job' hjob' d' hd' job hjob d hd hk
    have hshared : shared d.key :=
      h job hjob job' hjob' d.key (Job.key?_of_deed? hd) (hk ▸ Job.key?_of_deed? hd')
    exact ⟨I.isRaise hjobs' hjob' hd' (hk ▸ hshared), I.isRaise hjobs hjob hd hshared⟩

end Independent

/-- The order in which independent threads run does not matter.  If all of them finish by some
schedule, they finish when they run one after another, with the same answers, and the maps have the
same size and list the same entries.  Every increment of a shared counter answers whether it is
there; if it is, it ends at its number and what the increments have added, and else it is still
absent. -/
theorem Crew.schedules_agree [LawfulDatum ν] {hash : κ → UInt64} {schedule : List Nat}
    (hm : Moment.Reachable hash ⟨m, []⟩) (I : Independent shared work) :
    let crew : Crew κ ν := ⟨m, work.map fun jobs => ⟨jobs, []⟩⟩
    let c := crew.run schedule
    let d := crew.run crew.oneByOne
    c.isFinished = true →
      d.isFinished = true ∧ c.threads = d.threads ∧ c.map.size = d.map.size ∧
        c.map.toList.Perm d.map.toList ∧
        ∀ k, shared k → Counts k m.values c.map.values (gains k work c.threads) ∧
          ∀ p ∈ work.zip c.threads, Tells k (m.values k).isSome p.1 p.2.replies.reverse := by
  intro crew c d hc
  have S : m.Sound := (hm.good (.of_eq hash)).sound
  obtain ⟨Sc, H⟩ := (I.fit S).run_inTurn hc
  have hfresh : ∀ t ∈ crew.threads, ∀ job ∈ t.jobs, job.isFresh = true := by
    intro t ht job hjob
    obtain ⟨jobs, hjobs, rfl⟩ := List.mem_map.mp ht
    exact (I.allowed jobs hjobs job hjob).exists_deed.1
  obtain ⟨m', S', hvalues, hd⟩ := Crew.run_oneByOne [] S H hfresh
  have hd : d = ⟨m', c.threads⟩ := hd
  refine ⟨by rw [hd]; exact hc, by rw [hd], ?_, ?_, ?_⟩
  · have hperm := Sc.toList_perm S' hvalues.symm
    rw [hd, Sc.size_eq, S'.size_eq, hperm.length_eq]
  · rw [hd]
    exact Sc.toList_perm S' hvalues.symm
  · intro k hk
    refine InTurn.counter H fun jobs hjobs job hjob e he hkey => ?_
    exact I.isRaise hjobs hjob he (hkey ▸ hk)

/-- A counter with the number 10. -/
def oneCounter : TrieMap UInt64 Value := ((TrieMap.empty id).run [.insert 1 (.int 10)]).2

/-- Work for two threads that share the counter. -/
def twoThreads : List (List (Job UInt64 Value)) :=
  [[.call (.insert 7 .null), .increment 1 5], [.increment 1 3, .call (.probe (.pop? 9))]]

theorem independent_twoThreads : Independent (· = 1) twoThreads where
  allowed := by
    simp [twoThreads, Job.Allowed, Op.plan?, Plan.store, Probe.plan, Probe.key]
  apart := by
    simp [twoThreads, Job.key?, Job.deed?, Deed.key, Op.plan?, Plan.store, Probe.plan, Probe.key]

/-- The second thread overtakes the first one between its load and its compare-and-swap. -/
theorem Crew.schedules_agree_overtaken :
    let crew : Crew UInt64 Value := ⟨oneCounter, twoThreads.map fun jobs => ⟨jobs, []⟩⟩
    let c := crew.run [0, 0, 1, 1, 0, 0, 0, 1]
    c.isFinished = true ∧ c.threads = (crew.run crew.oneByOne).threads ∧
      c.map.values 1 = some (.int 18) := by
  intro crew c
  have hc : c.isFinished = true := by decide +kernel
  have hm : Moment.Reachable id ⟨oneCounter, []⟩ := Moment.Reachable.run (.made .empty) _
  obtain ⟨_, hthreads, _, _, hcounts⟩ := Crew.schedules_agree hm independent_twoThreads hc
  have hgains : gains 1 twoThreads c.threads = 8 := by decide +kernel
  have hcount := (hcounts 1 rfl).1.value_eq 10 (by rfl)
  rw [hgains] at hcount
  exact ⟨hc, hthreads, hcount⟩

end NibbleTrie
