/-
What a job comes to.

A job takes a step or two, and an increment that was overtaken begins again, but
in the end it has done one thing to one key.  This is its deed.  Deeds that are
about different keys can change places, and so can two that raise one counter.

So what the threads of a crew do in any order, they could have done in turn, one
after another: a deed of a later thread, done early, can wait until all of the
earlier threads are through.  Nothing here is about tries or maps; a deed acts on
the values of keys.

Main statements: `Deed.Does.swap`; a deed done early can wait (`InTurn.defer`);
a counter ends with what was added to it (`InTurn.counter`).
-/
import NibbleTrie.Proofs.Locality
import NibbleTrie.Thread

namespace NibbleTrie

/-! ## Values that count

A value need not be equal to itself.  One that is not can be loaded, but a
compare-and-swap never finds it again. -/

/-- Values among which there are counters. -/
class LawfulDatum (ν : Type v) [Datum ν] : Prop where
  toInt_ofInt : ∀ n, Datum.toInt (Datum.ofInt n : ν) = n
  ofInt_beq : ∀ n, ((Datum.ofInt n : ν) == Datum.ofInt n) = true
  toInt_eq : ∀ {v w : ν}, (v == w) = true → Datum.toInt v = Datum.toInt w
  beq_self : ∀ {v w : ν}, (v == w) = true → (v == v) = true

theorem Decimal.beq_self {x y : Decimal} (h : (x == y) = true) : (x == x) = true := by
  change Decimal.same x y = true at h
  show Decimal.same x x = true
  cases x with
  | nan => cases h
  | infinite s => exact BEq.rfl
  | finite s u p => simp [Decimal.same]

namespace Value

mutual

/-- A value that is equal to something is equal to itself. -/
theorem same_self : ∀ {v w : Value}, same v w = true → same v v = true
  | null, _, _ => rfl
  | bool b, _, _ => show (b == b) = true from BEq.rfl
  | int n, _, _ => show (n == n) = true from BEq.rfl
  | decimal x, decimal y, h => Decimal.beq_self (show (x == y) = true from h)
  | text s, _, _ => show (s == s) = true from BEq.rfl
  | list vs, list ws, h => sameAll_self (show sameAll vs ws = true from h)
  | decimal _, null, h | decimal _, bool _, h | decimal _, int _, h | decimal _, text _, h
  | decimal _, list _, h | list _, null, h | list _, bool _, h | list _, int _, h
  | list _, decimal _, h | list _, text _, h => absurd h Bool.false_ne_true

theorem sameAll_self : ∀ {vs ws : List Value}, sameAll vs ws = true → sameAll vs vs = true
  | [], _, _ => rfl
  | _ :: _, [], h => absurd h Bool.false_ne_true
  | v :: vs, w :: ws, h => by
    have h : (same v w && sameAll vs ws) = true := h
    obtain ⟨hhead, htail⟩ := Bool.and_eq_true_iff.mp h
    exact Bool.and_eq_true_iff.mpr ⟨same_self hhead, sameAll_self htail⟩

end

/-- Equal values count the same. -/
theorem toInt_eq_of_same {v w : Value} (h : same v w = true) : toInt v = toInt w := by
  cases v <;> cases w
  case int.int => exact eq_of_beq h
  all_goals first | rfl | exact absurd h Bool.false_ne_true

instance : LawfulDatum Value where
  toInt_ofInt _ := rfl
  ofInt_beq n := show (n == n) = true from BEq.rfl
  toInt_eq h := toInt_eq_of_same h
  beq_self h := same_self h

end Value

/-! ## Deeds -/

variable {κ : Type u} {ν : Type v}

/-- What a job comes to. -/
inductive Deed (κ : Type u) (ν : Type v) where
  /-- An operation on one key. -/
  | act (plan : Plan κ ν)
  /-- Adding to a counter, if it is there. -/
  | raise (key : κ) (amount : Int64)

/-- The deed of a job that is about one key. -/
def Job.deed? [Datum ν] : Job κ ν → Option (Deed κ ν)
  | .call op => op.plan?.map .act
  | .increment k amount | .commit k amount _ => some (.raise k amount)

/-- The key that a deed is about. -/
def Deed.key : Deed κ ν → κ
  | .act plan => plan.key
  | .raise k _ => k

/-- The key that a job is about, if it is about one. -/
def Job.key? [Datum ν] (job : Job κ ν) : Option κ := job.deed?.map Deed.key

theorem Job.key?_of_deed? [Datum ν] {job : Job κ ν} {d : Deed κ ν} (h : job.deed? = some d) :
    job.key? = some d.key := congrArg (Option.map Deed.key) h

namespace Deed

/-- True of deeds that add to a counter. -/
def isRaise : Deed κ ν → Bool
  | act _ => false
  | raise _ _ => true

/-- Deeds that can change places. -/
def Commutes (d d' : Deed κ ν) : Prop := d.key = d'.key → d.isRaise = true ∧ d'.isRaise = true

/-- What a deed answers, and what it makes of the value of its key.  A value that is not equal to
itself cannot be raised. -/
inductive Gives [Datum ν] :
    Deed κ ν → Option ν → Except Fault (Reply κ ν) → Option ν → Prop
  | act {plan : Plan κ ν} {v?} : Gives (.act plan) v? (plan.on v?).1 (plan.on v?).2
  | raised {k amount v} : (v == v) = true → Gives (.raise k amount) (some v) (.ok (.flag true))
      (some (Datum.ofInt (Datum.toInt v + amount)))
  | missed {k amount} : Gives (.raise k amount) none (.ok (.flag false)) none

/-- A deed is done: what it answers, and the values that it leaves. -/
def Does [DecidableEq κ] [Datum ν] (d : Deed κ ν) (V : Values κ ν)
    (answer : Except Fault (Reply κ ν)) (V' : Values κ ν) : Prop :=
  ∃ v?, d.Gives (V d.key) answer v? ∧ V' = Function.update V d.key v?

variable [Datum ν] {d d' : Deed κ ν} {answer answer' : Except Fault (Reply κ ν)}

/-- A deed does one thing only. -/
theorem Gives.unique {v? w? w?' : Option ν} (h : d.Gives v? answer w?)
    (h' : d.Gives v? answer' w?') : answer = answer' ∧ w? = w?' := by
  cases h <;> cases h' <;> exact ⟨rfl, rfl⟩

/-- Two raises of one counter can change places. -/
theorem Gives.swap [LawfulDatum ν] {k : κ} {a b : Int64} {v? v₁? v₂? : Option ν}
    (h : (raise k a).Gives v? answer v₁?) (h' : (raise k b).Gives v₁? answer' v₂?) :
    ∃ w?, (raise k b).Gives v? answer' w? ∧ (raise k a).Gives w? answer v₂? := by
  cases h with
  | missed =>
    cases h' with
    | missed => exact ⟨none, .missed, .missed⟩
  | @raised _ _ v hv =>
    cases h' with
    | raised =>
      refine ⟨some (Datum.ofInt (Datum.toInt v + b)), .raised hv, ?_⟩
      have hsum : Datum.toInt (Datum.ofInt (Datum.toInt v + a) : ν) + b =
          Datum.toInt (Datum.ofInt (Datum.toInt v + b) : ν) + a := by
        rw [LawfulDatum.toInt_ofInt, LawfulDatum.toInt_ofInt, Int64.add_assoc, Int64.add_comm a,
          ← Int64.add_assoc]
      rw [hsum]
      exact .raised (LawfulDatum.ofInt_beq _)

variable [DecidableEq κ] {V V₁ V₂ : Values κ ν}

theorem Does.unique (h : d.Does V answer V₁) (h' : d.Does V answer' V₂) :
    answer = answer' ∧ V₁ = V₂ := by
  obtain ⟨_, G, rfl⟩ := h
  obtain ⟨_, G', rfl⟩ := h'
  obtain ⟨hanswer, rfl⟩ := G.unique G'
  exact ⟨hanswer, rfl⟩

/-- An increment gives up if the counter is absent. -/
theorem Does.missed {k : κ} {amount : Int64} (h : V k = none) :
    (raise k amount).Does V (.ok (.flag false)) V := by
  refine ⟨none, ?_, ?_⟩
  · show (raise k amount).Gives (V k) _ none
    rw [h]
    exact .missed
  · rw [key, ← h, Function.update_eq_self]

/-- An increment adds to a counter that is there. -/
theorem Does.raised {k : κ} {amount : Int64} {v : ν} (hv : V k = some v) (h : (v == v) = true) :
    (raise k amount).Does V (.ok (.flag true))
      (Function.update V k (some (Datum.ofInt (Datum.toInt v + amount)))) := by
  refine ⟨_, ?_, rfl⟩
  show (raise k amount).Gives (V k) _ _
  rw [hv]
  exact .raised h

/-- Only a counter that is equal to itself is raised. -/
theorem Does.beq_self {k : κ} {amount : Int64} {v : ν} (h : (raise k amount).Does V answer V₁)
    (hv : V k = some v) : (v == v) = true := by
  obtain ⟨v?, G, -⟩ := h
  simp only [key, hv] at G
  cases G with
  | raised h => exact h

/-- Two deeds that commute answer the same in either order, and leave the same values. -/
theorem Does.swap [LawfulDatum ν] (hc : d.Commutes d') (h : d.Does V answer V₁)
    (h' : d'.Does V₁ answer' V₂) : ∃ V₁', d'.Does V answer' V₁' ∧ d.Does V₁' answer V₂ := by
  obtain ⟨v₁?, G, rfl⟩ := h
  obtain ⟨v₂?, G', rfl⟩ := h'
  by_cases hk : d.key = d'.key
  · cases d with
    | act => cases (hc hk).1
    | raise k a =>
      cases d' with
      | act => cases (hc hk).2
      | raise k' b =>
        obtain rfl : k = k' := hk
        simp only [key, Function.update_self] at G G'
        obtain ⟨w?, H', H⟩ := G.swap G'
        refine ⟨Function.update V k w?, ⟨w?, H', rfl⟩, v₂?, ?_, ?_⟩
        · simpa only [key, Function.update_self] using H
        · simp only [key, Function.update_idem]
  · rw [Function.update_of_ne (Ne.symm hk)] at G'
    refine ⟨Function.update V d'.key v₂?, ⟨v₂?, G', rfl⟩, v₁?, ?_, ?_⟩
    · rwa [Function.update_of_ne hk]
    · exact Function.update_comm hk v₁? v₂? V

end Deed

/-! ## Jobs done in turn -/

section Turns
variable [DecidableEq κ] [Datum ν]

/-- Jobs are done one after another: their answers, and the values that they leave.  A fault ends
the work. -/
inductive Done : List (Job κ ν) → Values κ ν → List (Reply κ ν) → Values κ ν → Prop
  | nil {V} : Done [] V [] V
  | answered {job jobs d V reply V' replies W} : job.deed? = some d → d.Does V (.ok reply) V' →
      Done jobs V' replies W → Done (job :: jobs) V (reply :: replies) W
  | failed {job jobs d V fault V'} : job.deed? = some d → d.Does V (.error fault) V' →
      Done (job :: jobs) V [] V'

/-- Threads work one after another, each to its end: the threads at the end, and the values that
they leave. -/
inductive InTurn : List (Thread κ ν) → Values κ ν → List (Thread κ ν) → Values κ ν → Prop
  | nil {V} : InTurn [] V [] V
  | cons {t threads V replies V' ended W} : Done t.jobs V replies V' →
      InTurn threads V' ended W →
      InTurn (t :: threads) V (⟨[], replies.reverse ++ t.replies⟩ :: ended) W

/-- A deed that a thread does first, with what it answers and the thread after it. -/
inductive Thread.Begins (d : Deed κ ν) :
    Thread κ ν → Except Fault (Reply κ ν) → Thread κ ν → Prop
  | answered {job jobs replies reply} : job.deed? = some d →
      Begins d ⟨job :: jobs, replies⟩ (.ok reply) ⟨jobs, reply :: replies⟩
  | failed {job jobs replies fault} : job.deed? = some d →
      Begins d ⟨job :: jobs, replies⟩ (.error fault) ⟨[], replies⟩

/-- A deed that commutes with all deeds of some jobs. -/
def Deed.CommutesAll (d : Deed κ ν) (jobs : List (Job κ ν)) : Prop :=
  ∀ job ∈ jobs, ∀ d', job.deed? = some d' → d.Commutes d'

variable {d : Deed κ ν} {answer : Except Fault (Reply κ ν)} {jobs : List (Job κ ν)}
  {replies : List (Reply κ ν)} {V V₁ W : Values κ ν} {t t' : Thread κ ν}
  {left right ended : List (Thread κ ν)}

/-- A deed done before some jobs that it commutes with can wait until they are done. -/
theorem Done.defer [LawfulDatum ν] (D : Done jobs V₁ replies W) (hd : d.Does V answer V₁)
    (hc : d.CommutesAll jobs) : ∃ W', Done jobs V replies W' ∧ d.Does W' answer W := by
  induction D generalizing V with
  | nil => exact ⟨V, .nil, hd⟩
  | answered hjob hdoes _ ih =>
    obtain ⟨V', hfirst, hthen⟩ := hd.swap (hc _ List.mem_cons_self _ hjob) hdoes
    obtain ⟨W', D', hlast⟩ := ih hthen fun job h => hc job (List.mem_cons_of_mem _ h)
    exact ⟨W', .answered hjob hfirst D', hlast⟩
  | failed hjob hdoes =>
    obtain ⟨V', hfirst, hthen⟩ := hd.swap (hc _ List.mem_cons_self _ hjob) hdoes
    exact ⟨V', .failed hjob hfirst, hthen⟩

/-- A deed that a thread does early can wait until its turn comes, if it commutes with all that the
threads before have to do. -/
theorem InTurn.defer [LawfulDatum ν] (hbegins : t.Begins d answer t') (hd : d.Does V answer V₁)
    (hc : ∀ u ∈ left, d.CommutesAll u.jobs)
    (H : InTurn (left ++ t' :: right) V₁ ended W) :
    InTurn (left ++ t :: right) V ended W := by
  induction left generalizing V V₁ ended with
  | nil =>
    cases H with
    | cons D rest =>
      cases hbegins with
      | @answered job jobs replies _ hjob =>
        simpa using InTurn.cons (t := ⟨job :: jobs, replies⟩) (.answered hjob hd D) rest
      | failed hjob =>
        cases D with
        | nil => exact .cons (.failed hjob hd) rest
  | cons u left ih =>
    cases H with
    | cons D rest =>
      obtain ⟨V', D', hlast⟩ := D.defer hd (hc u List.mem_cons_self)
      exact .cons D' (ih hlast (fun u h => hc u (List.mem_cons_of_mem _ h)) rest)

/-- A job that begins again still comes to the same. -/
theorem InTurn.again {job job' : Job κ ν} (hd : job.deed? = job'.deed?)
    (H : InTurn (left ++ ⟨job' :: jobs, replies⟩ :: right) V ended W) :
    InTurn (left ++ ⟨job :: jobs, replies⟩ :: right) V ended W := by
  induction left generalizing V ended with
  | nil =>
    cases H with
    | cons D rest =>
      cases D with
      | answered hjob hdoes D => exact .cons (.answered (hd.trans hjob) hdoes D) rest
      | failed hjob hdoes => exact .cons (.failed (hd.trans hjob) hdoes) rest
  | cons u left ih =>
    cases H with
    | cons D rest => exact .cons D (ih rest)

/-- Threads without work leave all as it is. -/
theorem InTurn.rest : ∀ {threads : List (Thread κ ν)}, (∀ t ∈ threads, t.jobs = []) →
    InTurn threads V threads V
  | [], _ => .nil
  | ⟨jobs, replies⟩ :: threads, h => by
    obtain rfl : jobs = [] := h _ List.mem_cons_self
    exact .cons (t := ⟨[], replies⟩) .nil (InTurn.rest fun t ht => h t (List.mem_cons_of_mem _ ht))

/-! ## Counters -/

omit [Datum ν] in
/-- What a job has added to the counter of `k` if this is its answer. -/
def Job.gain (k : κ) : Job κ ν → Reply κ ν → Int64
  | .increment k' amount, .flag true | .commit k' amount _, .flag true =>
    if k' = k then amount else 0
  | _, _ => 0

omit [Datum ν] in
/-- What a thread with these jobs has added to the counter of `k`. -/
def Thread.gain (k : κ) (jobs : List (Job κ ν)) (t : Thread κ ν) : Int64 :=
  (List.zipWith (Job.gain k) jobs t.replies.reverse).sum

omit [Datum ν] in
/-- What threads with this work have added to the counter of `k`. -/
def gains (k : κ) (work : List (List (Job κ ν))) (threads : List (Thread κ ν)) : Int64 :=
  (List.zipWith (Thread.gain k) work threads).sum

/-- On `k` these jobs do nothing but raise a counter. -/
def OnlyRaises (k : κ) (jobs : List (Job κ ν)) : Prop :=
  ∀ job ∈ jobs, ∀ d, job.deed? = some d → d.key = k → d.isRaise = true

/-- What happens to a counter: it is there in the end if it was, and then it ends `amount` above its
number. -/
structure Counts (k : κ) (V W : Values κ ν) (amount : Int64) : Prop where
  isSome_eq : (W k).isSome = (V k).isSome
  value_eq : ∀ n, V k = some (Datum.ofInt n) → W k = some (Datum.ofInt (n + amount))

/-- Those of the jobs that are about `k` and have an answer answer `there`. -/
def Tells (k : κ) (there : Bool) (jobs : List (Job κ ν)) (replies : List (Reply κ ν)) : Prop :=
  ∀ job reply, (job, reply) ∈ jobs.zip replies → job.key? = some k → reply = .flag there

variable {k : κ} {a b : Int64}

omit [DecidableEq κ] in
theorem Counts.of_eq (h : W k = V k) : Counts k V W 0 :=
  ⟨congrArg Option.isSome h, fun n hV => by rw [Int64.add_zero]; exact h.trans hV⟩

omit [DecidableEq κ] in
theorem Counts.trans (h : Counts k V V₁ a) (h' : Counts k V₁ W b) : Counts k V W (a + b) :=
  ⟨h'.isSome_eq.trans h.isSome_eq, fun n hV => by
    rw [← Int64.add_assoc]
    exact h'.value_eq _ (h.value_eq n hV)⟩

theorem Job.gain_act {job : Job κ ν} {plan : Plan κ ν} {reply : Reply κ ν}
    (hjob : job.deed? = some (.act plan)) : job.gain k reply = 0 := by
  cases job with
  | call _ => rfl
  | increment _ _ => cases hjob
  | commit _ _ _ => cases hjob

theorem Job.gain_raise {job : Job κ ν} {k' : κ}
    (hjob : job.deed? = some (.raise k' a)) :
    job.gain k (.flag true) = (if k' = k then a else 0) ∧ job.gain k (.flag false) = 0 := by
  cases job with
  | call op => simp [deed?] at hjob
  | increment _ _ => cases hjob; exact ⟨rfl, rfl⟩
  | commit _ _ _ => cases hjob; exact ⟨rfl, rfl⟩

/-- What a job adds to a counter is its gain; a fault adds nothing. -/
theorem Deed.Does.counter [LawfulDatum ν] {job : Job κ ν} (hjob : job.deed? = some d)
    (h : d.Does V answer W) (hk : d.key = k → d.isRaise = true) :
    Counts k V W (match answer with | .ok reply => job.gain k reply | .error _ => 0) := by
  obtain ⟨v?, G, rfl⟩ := h
  cases d with
  | act plan =>
    have hne : k ≠ plan.key := fun h => by cases hk h.symm
    cases answer with
    | ok reply =>
      simp only [Job.gain_act hjob]
      exact .of_eq (Function.update_of_ne hne _ _)
    | error _ => exact .of_eq (Function.update_of_ne hne _ _)
  | raise k' amount =>
    obtain ⟨htrue, hfalse⟩ := Job.gain_raise (k := k) hjob
    simp only [key] at G ⊢
    cases hv : V k' with
    | none =>
      rw [hv] at G
      cases G
      simp only [hfalse]
      rw [← hv, Function.update_eq_self]
      exact .of_eq rfl
    | some v =>
      rw [hv] at G
      cases G
      simp only [htrue]
      split
      case isTrue h =>
        subst h
        refine ⟨?_, fun n hn => ?_⟩
        · rw [Function.update_self, hv]
          rfl
        · obtain rfl : v = Datum.ofInt n := Option.some.inj (hv.symm.trans hn)
          rw [Function.update_self, LawfulDatum.toInt_ofInt]
      case isFalse h => exact .of_eq (Function.update_of_ne (Ne.symm h) _ _)

/-- An increment answers whether the counter is there. -/
theorem Deed.Does.tells {reply : Reply κ ν} (h : d.Does V (.ok reply) W)
    (hraise : d.isRaise = true) : reply = .flag (V d.key).isSome := by
  obtain ⟨v?, G, rfl⟩ := h
  cases d with
  | act => cases hraise
  | raise k amount =>
    simp only [key] at G ⊢
    generalize V k = w? at G
    cases G <;> rfl

/-- Jobs that do nothing to a counter but raise it add up. -/
theorem Done.counter [LawfulDatum ν] (D : Done jobs V replies W) (hk : OnlyRaises k jobs) :
    Counts k V W (List.zipWith (Job.gain k) jobs replies).sum := by
  induction D with
  | nil => exact .of_eq rfl
  | answered hjob hdoes _ ih =>
    have hfirst := hdoes.counter hjob (hk _ List.mem_cons_self _ hjob)
    have hrest := ih fun job h => hk job (List.mem_cons_of_mem _ h)
    rw [List.zipWith_cons_cons, List.sum_cons]
    exact hfirst.trans hrest
  | failed hjob hdoes => exact hdoes.counter hjob (hk _ List.mem_cons_self _ hjob)

/-- Jobs that do nothing to a counter but raise it answer whether it is there. -/
theorem Done.tells [LawfulDatum ν] (D : Done jobs V replies W) (hk : OnlyRaises k jobs) :
    Tells k (V k).isSome jobs replies := by
  induction D with
  | nil => exact fun _ _ h => absurd h List.not_mem_nil
  | answered hjob hdoes _ ih =>
    have hraise := hk _ List.mem_cons_self _ hjob
    intro job' reply' hmem hkey
    rcases List.mem_cons.mp hmem with h | hmem
    · obtain ⟨rfl, rfl⟩ := Prod.mk.inj h
      obtain rfl := Option.some.inj ((Job.key?_of_deed? hjob).symm.trans hkey)
      exact hdoes.tells (hraise rfl)
    · rw [← (hdoes.counter hjob hraise).isSome_eq]
      exact ih (fun job h => hk job (List.mem_cons_of_mem _ h)) job' reply' hmem hkey
  | failed _ _ => exact fun _ _ h => absurd h List.not_mem_nil

/-- Threads that do nothing to a counter but raise it add up, and answer whether it is there. -/
theorem InTurn.counter [LawfulDatum ν] {work : List (List (Job κ ν))}
    (H : InTurn (work.map fun jobs => ⟨jobs, []⟩) V ended W)
    (hk : ∀ jobs ∈ work, OnlyRaises k jobs) : Counts k V W (gains k work ended) ∧
      ∀ p ∈ work.zip ended, Tells k (V k).isSome p.1 p.2.replies.reverse := by
  induction work generalizing V ended with
  | nil =>
    cases H
    exact ⟨.of_eq rfl, fun _ h => absurd h List.not_mem_nil⟩
  | cons jobs work ih =>
    cases H with
    | @cons _ _ _ replies _ ended _ D rest =>
      have hfirst := D.counter (hk jobs List.mem_cons_self)
      have htells := D.tells (hk jobs List.mem_cons_self)
      obtain ⟨hrest, hothers⟩ := ih rest fun jobs h => hk jobs (List.mem_cons_of_mem _ h)
      have hreplies : (replies.reverse ++ []).reverse = replies := by
        rw [List.append_nil, List.reverse_reverse]
      have hsum : gains k (jobs :: work) (⟨[], replies.reverse ++ []⟩ :: ended) =
          (List.zipWith (Job.gain k) jobs replies).sum + gains k work ended := by
        rw [gains, List.zipWith_cons_cons, List.sum_cons, Thread.gain, hreplies, gains]
      rw [hsum]
      refine ⟨hfirst.trans hrest, fun p hp => ?_⟩
      rcases List.mem_cons.mp hp with rfl | hp
      · rw [hreplies]
        exact htells
      · rw [← hfirst.isSome_eq]
        exact hothers p hp

end Turns

end NibbleTrie
