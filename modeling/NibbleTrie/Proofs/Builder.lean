/-
The builder of a value.

To keep or build the value of a key is decided at three places: a search from
the head of an arrival, whatever has become of it since; then, from the root
again, a slot that is held; and the search there.  The builder runs after the
last one, while the slot is held, and it may give up.

The builder is any code that leaves this map alone, and may change others.  It
is called once if both searches find nothing, and else not at all; in the end
the map is as it was before the call, or it is richer by the value.

Main statement: `Moment.Reachable.builder_called_once`.
-/
import NibbleTrie.Proofs.Linearization
import NibbleTrie.Session.Run

namespace NibbleTrie

variable {κ : Type u} {ν : Type v}

/-! ## Keeping or building on a map -/

namespace TrieMap

variable [BEq κ] {m : TrieMap κ ν} {a : Arrival} {k : κ}

/-- Neither the search from the head of an arrival nor the map itself has the key. -/
def Lacks (m : TrieMap κ ν) (a : Arrival) (k : κ) : Prop := m.peek a k = none ∧ ¬ m.Has k

variable [EquivBEq κ]

/-- A slot comes to be held for a key if and only if both searches find nothing. -/
theorem settle_of_lacks (S : m.Sound) (h : m.Lacks a k) : ∃ held,
    m.settle a k = .ok (.absent held) ∧ held.generation = m.generation ∧
      m.Holds (m.hash k) held ∧
      (m.trieAt held.generation).locate held.site k anyValue = .ok none ∧
      Content.lookup? m.toList k = none := by
  rcases settle_cases S a k with
    ⟨e, hseen, _⟩ | ⟨_, e, _, hentry⟩ | ⟨_, held, hset, hg, H, hnone, habsent⟩
  · have hpeek := h.1
    rw [peek_eq, hseen] at hpeek
    cases hpeek
  · obtain ⟨hmem, hk⟩ := Content.of_lookup?_eq_some (hentry _ (.refl _))
    exact absurd ⟨e, hmem, hk⟩ h.2
  · exact ⟨held, hset, hg, H, hnone, habsent _ (.refl _)⟩

/-- If one of the searches finds the key, its value is the answer. -/
theorem settle_of_not_lacks (S : m.Sound) (h : ¬ m.Lacks a k) : ∃ e : κ × ν,
    m.settle a k = .ok (.present e.2) ∧
      (m.seen a k = some e ∨ Content.lookup? m.toList k = some e) := by
  rcases settle_cases S a k with
    ⟨e, hseen, hset⟩ | ⟨_, e, hset, hentry⟩ | ⟨hseen, _, _, _, _, _, habsent⟩
  · exact ⟨e, hset, .inl hseen⟩
  · exact ⟨e, hset, .inr (hentry _ (.refl _))⟩
  · refine absurd ⟨by rw [peek_eq, hseen]; rfl, ?_⟩ h
    rintro ⟨e, he, hk⟩
    have hmiss := Content.of_lookup?_eq_none (habsent _ (.refl _)) e he
    rw [hk] at hmiss
    cases hmiss

/-- A value that was built comes in as a further entry. -/
theorem insertHeld_adds (S : m.Sound) {held : Held} (hg : held.generation = m.generation)
    (H : m.Holds (m.hash k) held)
    (hnone : (m.trieAt held.generation).locate held.site k anyValue = .ok none)
    (habsent : Content.lookup? m.toList k = none) (v : ν) :
    (m.insertHeld held k v).result = .ok () ∧
      (m.insertHeld held k v).state.toList.Perm ((k, v) :: m.toList) ∧
      (m.insertHeld held k v).state.size = m.size + 1 := by
  have A := insertHeld_acts S H hnone v
  rw [hg] at A
  obtain ⟨hresult, hperm⟩ := (A.refines S).agrees _ (.refl _)
  have hstore : Content.store m.toList (k, v) = (k, v) :: m.toList := by
    rw [Content.store, Content.edit,
      Content.without_eq_self (Content.of_lookup?_eq_none habsent)]
  rw [hstore] at hperm
  refine ⟨hresult, hperm, ?_⟩
  rw [(A.sound S).size_eq, S.size_eq, hperm.length_eq, List.length_cons]

variable [BEq ν]

/-- What is found of a key after some operations is an entry that it had at one moment since the
arrival. -/
theorem exists_moment {p : Probe κ ν} (S : m.Sound) (ha : m.begin p = .ok a) (ops : List (Op κ ν))
    {e : κ × ν} (h : (m.run ops).2.seen a p.key = some e ∨
      Content.lookup? (m.run ops).2.toList p.key = some e) :
    ∃ before after, ops.flatMap Op.parts = before ++ after ∧
      Content.lookup? (m.run before).2.toList p.key = some e := by
  rw [← run_parts S ops] at h
  have hparts : ∀ q ∈ ops.flatMap Op.parts, q.isSingle = true ∨ q = .clear := by
    intro q hq
    obtain ⟨op, _, hq⟩ := List.mem_flatMap.mp hq
    exact Op.single_of_mem_parts hq
  rcases h with hseen | hentry
  · obtain ⟨before, after, heq, hmoment⟩ := exists_seen S ha hparts
    exact ⟨before, after, heq, hmoment.symm.trans hseen⟩
  · exact ⟨_, [], (List.append_nil _).symm, hentry⟩

end TrieMap

/-! ## In a session -/

namespace World

variable [Key κ] {ρ : Type w} {ρ' : Type w'} {w : World κ ν} {map : Nat}
  {m : TrieMap κ ν} {a : Arrival} {k : κ}

/-- Keeps or builds the value of a key: the arrival, what runs before the first comparison, and
what follows. -/
def getOrBuild (w : World κ ν) (map : Nat) (k : κ) (between : World κ ν → ρ' × World κ ν)
    (prelude : World κ ν → ρ × World κ ν) (outcome : Except String ν) :
    Effect (World κ ν) ((ν × Bool × Option ρ) × Option ρ') :=
  (w.begin map (.getOrBuild k outcome) between).andThen fun w (a, reports) =>
    (w.build map a k prelude outcome).map fun r => (r, reports)

/-- What the first comparison of a probe reports that arrived at `a`, and the session it leaves: if
there is no head to compare with, nothing runs. -/
def entered (w : World κ ν) (a : Arrival) (between : World κ ν → ρ' × World κ ν) :
    Option ρ' × World κ ν :=
  if a.head.isSome then (some (between w).1, (between w).2) else (none, w)

theorem getOrBuild_eq {between : World κ ν → ρ' × World κ ν} {prelude : World κ ν → ρ × World κ ν}
    {outcome : Except String ν} (hmap : w.maps[map]? = some m)
    (ha : m.begin (.getOrBuild k outcome) = .ok a) :
    w.getOrBuild map k between prelude outcome =
      ((w.entered a between).2.build map a k prelude outcome).map
        fun r => (r, (w.entered a between).1) := by
  rw [getOrBuild, begin, hmap]
  simp only [ha, entered]
  split <;> rfl

variable {prelude : World κ ν → ρ × World κ ν} {outcome : Except String ν}

/-- A key that is found is not built. -/
theorem build_of_present {v : ν} (hmap : w.maps[map]? = some m)
    (hset : m.settle a k = .ok (.present v)) :
    w.build map a k prelude outcome = .pure w (v, true, none) := by
  rw [build, hmap]
  simp only [hset]

/-- A key that is not found is built, once. -/
theorem build_of_absent {held : Held} (hmap : w.maps[map]? = some m)
    (hset : m.settle a k = .ok (.absent held)) :
    w.build map a k prelude outcome = match outcome with
      | .error message => .fail (prelude w).2 (.builder message)
      | .ok v => ((prelude w).2.update map fun m => m.insertHeld held k v).map
          fun _ => (v, false, some (prelude w).1) := by
  cases outcome <;> simp only [build, hmap, hset]

end World

/-- This is what the command for it does. -/
theorem Action.run_build [Key κ] [Datum ν] (map : Nat) (k : κ)
    (commands prelude : List (Command κ ν)) (outcome : Except String ν) (w : World κ ν) :
    (Action.build k (some commands) prelude outcome).run map w =
      (w.getOrBuild map k (runAll commands) (runAll prelude) outcome).report map
        fun ((v, loaded, steps), reports) => .interrupted (.built v loaded steps) reports := by
  rfl

/-! ## The call of the builder -/

section Contract
variable [Key κ] [EquivBEq κ] [BEq ν] {ρ : Type w} {ρ' : Type w'}

/-- The value of a key is kept or built, in a session with lawful keys and at any moment of this
map.  Within the first comparison `between` runs the operations `ops` on the map, and whatever
else; if the slot has no head there is no comparison.  The builder is any code `prelude` that
leaves this map alone, and its outcome.

If what is then found from the head at hand and in the map lacks the key, the builder runs once:
a value is answered as a new one, and comes in as a further entry; if the builder gives up, the
map is as those operations left it, nothing is reported, and later operations answer as they
should.  If one of them has the key, the builder does not run, nothing is done or reported, and
the answer is a value that the key had at one moment of the call. -/
theorem Moment.Reachable.builder_called_once {hash : κ → UInt64} (law : Lawful hash)
    {s : Moment κ ν} (h : Reachable hash s) {w : World κ ν} {map : Nat}
    (hmap : w.maps[map]? = some s.map) (k : κ) (ops : List (Op κ ν))
    (between : World κ ν → ρ' × World κ ν)
    (hbetween : (between w).2.maps[map]? = some (s.map.run ops).2)
    (prelude : World κ ν → ρ × World κ ν)
    (hprelude : ∀ w, (prelude w).2.maps[map]? = w.maps[map]?) (outcome : Except String ν) :
    ∃ a, s.map.begin (.getOrBuild k outcome) = .ok a ∧
      let ran := if a.head.isSome then ops else []
      let m := (s.map.run ran).2
      let (reports, w') := w.entered a between
      let (steps, w'') := prelude w'
      let e := w.getOrBuild map k between prelude outcome
      w'.maps[map]? = some m ∧ w''.maps[map]? = some m ∧
      (m.Lacks a k →
        (∀ v, outcome = .ok v → e.result = .ok ((v, false, some steps), reports) ∧
          ∃ m', e.state = { w'' with maps := w''.maps.setIfInBounds map m' } ∧
            m'.toList.Perm ((k, v) :: m.toList) ∧ m'.size = m.size + 1) ∧
        ∀ message, outcome = .error message → e = .fail w'' (.builder message) ∧
          ∀ later, (m.run later).1 = (Content.run m.toList later).1) ∧
      (¬ m.Lacks a k → ∃ v, e = .pure w' ((v, true, none), reports) ∧
        ∃ before after kept, ran.flatMap Op.parts = before ++ after ∧
          Content.lookup? (s.map.run before).2.toList k = some (kept, v)) := by
  have S := (h.good law).sound
  obtain ⟨path, K⟩ := S.keyed_current
  obtain ⟨site, harrive, _⟩ := TrieMap.arrive_eq K.toLayout (s.map.hash k)
  have ha : s.map.begin (.getOrBuild k outcome) = .ok _ := harrive
  refine ⟨_, ha, ?_⟩
  generalize (⟨s.map.generation, site, _⟩ : Arrival) = a at ha
  dsimp only
  rw [World.getOrBuild_eq hmap ha]
  generalize hran : (if a.head.isSome then ops else []) = ran
  have hentered : (w.entered a between).2.maps[map]? = some (s.map.run ran).2 := by
    rw [World.entered, ← hran]
    split
    · exact hbetween
    · exact hmap
  generalize w.entered a between = entered at hentered
  obtain ⟨reports, w'⟩ := entered
  dsimp only at hentered ⊢
  have hcalled := (hprelude w').trans hentered
  have S' := (TrieMap.run_refines S ran).1
  refine ⟨hentered, hcalled, fun hlacks => ?_, fun hlacks => ?_⟩
  · obtain ⟨held, hset, hg, H, hnone, habsent⟩ := TrieMap.settle_of_lacks S' hlacks
    rw [World.build_of_absent hentered hset]
    refine ⟨?_, ?_⟩
    · rintro v rfl
      obtain ⟨hresult, hperm, hsize⟩ := TrieMap.insertHeld_adds S' hg H hnone habsent v
      simp only [World.update, hcalled]
      refine ⟨?_, _, rfl, hperm, hsize⟩
      simp only [Effect.map_result, hresult]
      rfl
    · rintro message rfl
      exact ⟨rfl, fun later => ((TrieMap.run_refines S' later).2 _ (.refl _)).1⟩
  · obtain ⟨e, hset, hfound⟩ := TrieMap.settle_of_not_lacks S' hlacks
    rw [World.build_of_present hentered hset]
    obtain ⟨before, after, heq, hmoment⟩ := TrieMap.exists_moment S ha ran hfound
    exact ⟨e.2, rfl, before, after, e.1, heq, hmoment⟩

end Contract

/-- A map of the key 2, and another one. -/
def twoMaps : World UInt64 Value :=
  ⟨#[((TrieMap.empty fun _ => 0).run [.insert 2 (.int 10)]).2, .empty fun _ => 0], #[]⟩

/-- A builder that stores something in the other map. -/
def storing : World UInt64 Value → List (Report UInt64 Value) × World UInt64 Value :=
  runAll [.on 1 (.call (.insert 9 .null))]

theorem storing_leaves (w : World UInt64 Value) : (storing w).2.maps[0]? = w.maps[0]? := by
  have hmaps : (storing w).2.maps = (w.update 1 (·.apply (.insert 9 .null))).state.maps := rfl
  rw [hmaps, World.update]
  cases w.maps[1]? with
  | none => rfl
  | some m => exact Array.getElem?_setIfInBounds_ne (by decide)

/-- The key 2 is removed while it is compared with the key 1, which is then built. -/
theorem builder_called_once_twoMaps :
    let between := runAll [.on 0 (.call (.probe (.erase 2)))]
    let e := twoMaps.getOrBuild 0 1 between storing (.ok (.int 7))
    e.result.map (fun r => (r.1.1, r.1.2.1)) = .ok (.int 7, false) ∧
      ∃ m', e.state.maps[0]? = some m' ∧ m'.toList.Perm [(1, .int 7)] ∧ m'.size = 1 := by
  intro between e
  have hmade : TrieMap.Made (fun _ => 0) (.empty fun _ => 0 : TrieMap UInt64 Value) := .empty
  have hreach := Moment.Reachable.run (.made hmade) [.insert 2 (.int 10)]
  obtain ⟨a, ha, _, hmap, hlacks, _⟩ := hreach.builder_called_once (.const 0) (w := twoMaps) rfl 1
    [.probe (.erase 2)] between rfl storing storing_leaves (.ok (.int 7))
  cases ha
  obtain ⟨hresult, m', hstate, hperm, hsize⟩ := (hlacks ⟨rfl, fun ⟨_, he, _⟩ => nomatch he⟩).1 _ rfl
  refine ⟨congrArg (Except.map fun r => (r.1.1, r.1.2.1)) hresult, m', ?_, hperm, hsize⟩
  obtain ⟨hlt, _⟩ := Array.getElem?_eq_some_iff.mp hmap
  exact (congrArg (fun w => w.maps[0]?) hstate).trans (Array.getElem?_setIfInBounds_self_of_lt hlt)

end NibbleTrie
