/-
Interrupted probes are linearizable.

Between the arrival of a probe and its first comparison other operations may
run, and the probe goes on with the head it holds: the head may have been
unlinked, its slot split, its branch dropped, its generation detached.  What
matters is what the probe sees from that head.  One write either leaves it as it
was or makes it the entry of the key in the content after the write
(`Step.entryFrom?_cases`), so after any number of writes it is the entry that
the key had at some moment since the arrival (`exists_seen`).  A probe that
writes nothing takes effect at that moment; one that writes takes effect at the
end, or right before the first `clear` if it writes to the generation that the
`clear` detached.

An insertion of many entries is not one write but one for each entry, and a
probe can take effect between two of them.  So operations are taken apart first
(`Op.parts`).

Main statements: `Moment.Reachable.interrupted_linearizable`, and that it would
be wrong for insertions of many entries as a whole
(`insertMany_not_atomic`).
-/
import NibbleTrie.Proofs.Moment

namespace NibbleTrie

/-- The operations that an operation consists of: those that take effect at one point. -/
def Op.parts {κ : Type u} {ν : Type v} : Op κ ν → List (Op κ ν)
  | .insertMany entries => entries.map fun e => .insert e.1 e.2
  | op => [op]

namespace Trie

variable {κ : Type u} {ν : Type v} [BEq κ] {t t' : Trie κ ν} {path path' : BranchId → List Nibble}
  {hash : κ → UInt64} {gone : Option EntryId} {new : Option (κ × ν)} {head : EntryId} {k : κ}

/-- The entry of a key in the chain from `head` on. -/
def entryFrom? (t : Trie κ ν) (head : EntryId) (k : κ) : Option (κ × ν) :=
  Content.lookup? ((t.chain head).filterMap t.item?) k

theorem search_eq_entryFrom? (hf : t.Falling) (hlt : head < t.entries.size) :
    ((t.search head k TrieMap.anyValue).map fun (_, x) => (x.key, x.value)) =
      t.entryFrom? head k := by
  have hhit : (t.hit k TrieMap.anyValue) = fun a => (t.item? a).any fun e => e.1 == k := by
    funext a
    rw [hit, item?]
    cases t.entries[a]? <;> simp [TrieMap.anyValue]
  rw [search_eq hf hlt, entryFrom?, Content.lookup?, List.find?_filterMap, hhit]
  cases (t.chain head).find? fun a => (t.item? a).any fun e => e.1 == k with
  | none => rfl
  | some a =>
    simp only [Option.bind_some, Option.map_map, item?]
    rfl

theorem Keyed.distinct_chain [EquivBEq κ] (K : Keyed hash path t) (hlt : head < t.entries.size) :
    Content.Distinct ((t.chain head).filterMap t.item?) := by
  rw [Content.Distinct, List.pairwise_filterMap]
  refine (K.distinct hlt).imp fun {a a'} h item hitem item' hitem' => ?_
  obtain ⟨x, hx, rfl⟩ := Option.map_eq_some_iff.mp hitem
  obtain ⟨x', hx', rfl⟩ := Option.map_eq_some_iff.mp hitem'
  exact h x x' hx hx'

/-- After one write a chain in hand shows for a key what it showed before, or the entry of the
key in the content. -/
theorem Step.entryFrom?_cases [EquivBEq κ] (law : Lawful hash) (K : Keyed hash path t)
    (S : Step hash path path' t t' gone new) (hlt : head < t.entries.size) {l : Content κ ν}
    (hl : t'.toList.Perm l) :
    t'.entryFrom? head k = t.entryFrom? head k ∨
      t'.entryFrom? head k = Content.lookup? l k := by
  have hsize : ∀ a ∈ t.chain head, a < t.entries.size := (linked_chain K.falling hlt).lt_size
  rcases S.stale head hlt with hsame | ⟨a, ha, m, rest, _, hold, hnew⟩
  · left
    rw [entryFrom?, hsame, S.keeps.filterMap_item? hsize, ← entryFrom?]
  · have hdistinct := K.distinct_chain hlt
    have hdistinct' := S.keyed.distinct_chain (Nat.lt_of_lt_of_le hlt S.keeps.size_le)
    rw [hold] at hsize hdistinct
    obtain ⟨x, hx⟩ := entry_of_lt (hsize a (by simp))
    have hm := S.keeps.filterMap_item? fun b hb => hsize b (List.mem_append_left _ hb)
    have hrest := S.keeps.filterMap_item? fun b hb =>
      hsize b (List.mem_append_right _ (List.mem_cons_of_mem _ hb))
    have hfresh := S.filterMap_fresh
    rw [List.filterMap_append, List.filterMap_cons_some (item?_of_entry hx)] at hdistinct
    have hbefore : t.entryFrom? head k = Content.lookup?
        (m.filterMap t.item? ++ (x.key, x.value) :: rest.filterMap t.item?) k := by
      rw [entryFrom?, hold, List.filterMap_append, List.filterMap_cons_some (item?_of_entry hx)]
    have hafter : t'.entryFrom? head k = Content.lookup?
        (m.filterMap t.item? ++ (new.toList ++ rest.filterMap t.item?)) k := by
      rw [entryFrom?, hnew, List.filterMap_append, List.filterMap_append, hm, hrest, hfresh]
    rw [hbefore, hafter]
    by_cases hk : (x.key == k) = true
    · -- the entry of `k` went, and the fresh one has its key
      right
      rw [Content.lookup?_exchange hdistinct hk]
      have hperm := S.edit_perm law K (.refl _) (k := k)
        (fun b hb y hy => by cases hb.symm.trans ha; cases hx.symm.trans hy; exact hk)
        (fun h => by rw [h] at ha; cases ha)
      rw [← Content.lookup?_perm (S.keyed.distinct_toList law) hl,
        Content.lookup?_perm (S.keyed.distinct_toList law) hperm, Content.lookup?_append_without]
    · left
      refine Content.lookup?_exchange_ne hk fun item hitem => ?_
      rw [Option.mem_toList] at hitem
      rw [BEq.congr_left (BEq.symm (S.key a ha item hitem x hx))]
      exact hk

end Trie

/-- A part is one write at most to the current trie, or a clearing. -/
theorem Op.single_of_mem_parts {κ : Type u} {ν : Type v} {op q : Op κ ν} (h : q ∈ op.parts) :
    q.isSingle = true ∨ q = .clear := by
  cases op with
  | insertMany entries =>
    obtain ⟨e, _, rfl⟩ := List.mem_map.mp h
    exact .inl rfl
  | clear => exact .inr (List.mem_singleton.mp h)
  | _ => exact .inl (by rw [List.mem_singleton.mp h]; rfl)

namespace TrieMap

variable {κ : Type u} {ν : Type v} {ρ : Type w} [BEq κ] {m : TrieMap κ ν} {a : Arrival} {k : κ}
  {h : UInt64}

theorem seen_eq (S : m.Sound) (ha : m.Arrived h a) :
    m.seen a k = a.head.bind fun head => (m.trieAt a.generation).entryFrom? head k := by
  obtain ⟨path, L⟩ := S.layout ha.generation_le
  rw [seen]
  cases hhead : a.head with
  | none => rfl
  | some head => exact Trie.search_eq_entryFrom? L.falling (ha.head_lt head hhead)

/-- What an arrival sees changes only with its generation. -/
theorem seen_congr {m' : TrieMap κ ν} (h : m'.trieAt a.generation = m.trieAt a.generation) :
    m'.seen a k = m.seen a k := by
  simp only [seen, h]

/-- After one write an arrival sees of a key what it saw before, or the entry of the key in the
content. -/
theorem Acts.seen_cases [EquivBEq κ] {e : Effect (TrieMap κ ν) ρ}
    {spec : Content κ ν → Except Fault ρ × Content κ ν} (A : Acts m m.generation e spec)
    (S : m.Sound) (ha : m.Arrived h a) :
    e.state.seen a k = m.seen a k ∨ e.state.seen a k = Content.lookup? e.state.toList k := by
  by_cases hg : a.generation = m.generation
  · rw [seen_eq S ha, seen_eq (A.sound S) (A.arrived ha)]
    cases hhead : a.head with
    | none => exact .inl rfl
    | some head =>
      have hlt := ha.head_lt head hhead
      rw [hg] at hlt ⊢
      rcases A.acts.moves with heq | ⟨path, path', gone, new, K, W⟩
      · exact .inl (congrArg (Trie.entryFrom? · head k) heq)
      · refine W.entryFrom?_cases S.lawful K hlt (List.Perm.of_eq ?_)
        show (e.state.trieAt m.generation).toList = _
        rw [← A.generation_eq, trieAt_generation]
        rfl
  · exact .inl (seen_congr (A.other _ ha.generation_le hg))

variable [BEq ν]

theorem run_append (m : TrieMap κ ν) (ops ops' : List (Op κ ν)) :
    m.run (ops ++ ops') = ((m.run ops).1 ++ ((m.run ops).2.run ops').1,
      ((m.run ops).2.run ops').2) := by
  induction ops generalizing m with
  | nil => rfl
  | cons op ops ih => simp only [List.cons_append, run, ih]

variable [EquivBEq κ]

/-- Inserting entries in order leaves the map that its parts leave. -/
theorem run_inserts : ∀ {m : TrieMap κ ν} (_ : m.Sound) (entries : List (κ × ν)),
    (m.run (entries.map fun e => .insert e.1 e.2)).2 = (m.insertMany entries).state
  | _, _, [] => rfl
  | m, S, (k, v) :: rest => by
    rw [(insertMany_cons S k v rest).2]
    exact run_inserts ((insert_acts S k v).refines S).sound rest

/-- Operations leave the map that their parts leave. -/
theorem run_parts : ∀ {m : TrieMap κ ν} (_ : m.Sound) (ops : List (Op κ ν)),
    (m.run (ops.flatMap Op.parts)).2 = (m.run ops).2
  | _, _, [] => rfl
  | m, S, op :: ops => by
    have hop : (m.run op.parts).2 = (m.apply op).state := by
      cases op with
      | insertMany entries => exact run_inserts S entries
      | _ => rfl
    rw [List.flatMap_cons, run_append, hop, run_parts (apply_refines S op).sound ops]
    rfl

/-- Operations keep a map in good order, and what arrived before them. -/
theorem run_arrived (S : m.Sound) (ha : m.Arrived h a) (ops : List (Op κ ν)) :
    (m.run ops).2.Sound ∧ (m.run ops).2.hash = m.hash ∧ (m.run ops).2.Arrived h a := by
  induction ops generalizing m with
  | nil => exact ⟨S, rfl, ha⟩
  | cons op ops ih =>
    have E := apply_evolves S op
    obtain ⟨S', hhash, ha'⟩ := ih E.sound (E.arrived ha)
    exact ⟨S', hhash.trans E.hash_eq, ha'⟩

/-- What an arrival sees of its key after some writes is the entry that the key had at one
moment since. -/
theorem exists_seen {p : Probe κ ν} (S : m.Sound) (ha : m.begin p = .ok a) {ops : List (Op κ ν)}
    (hops : ∀ q ∈ ops, q.isSingle = true ∨ q = .clear) :
    ∃ before after, ops = before ++ after ∧
      (m.run ops).2.seen a p.key = Content.lookup? (m.run before).2.toList p.key := by
  obtain ⟨path, K⟩ := S.keyed_current
  induction ops using List.reverseRecOn with
  | nil => exact ⟨[], [], rfl, seen_arrive S ha (.refl _)⟩
  | append_singleton ops q ih =>
    obtain ⟨before, after, heq, hseen⟩ := ih fun q hq => hops q (List.mem_append_left _ hq)
    obtain ⟨S', -, ha'⟩ := run_arrived S (arrived_arrive K.toLayout ha) ops
    have hrun : (m.run (ops ++ [q])).2 = ((m.run ops).2.apply q).state := by
      rw [run_append]
      rfl
    have keep : (m.run (ops ++ [q])).2.seen a p.key = (m.run ops).2.seen a p.key →
        ∃ before after, ops ++ [q] = before ++ after ∧
          (m.run (ops ++ [q])).2.seen a p.key = Content.lookup? (m.run before).2.toList p.key :=
      fun h => ⟨before, after ++ [q], by rw [heq, List.append_assoc], h.trans hseen⟩
    rcases hops q (by simp) with hq | rfl
    · rcases (apply_acts S' hq).seen_cases (k := p.key) S' ha' with h | h
      · exact keep (by rw [hrun]; exact h)
      · refine ⟨ops ++ [q], [], (List.append_nil _).symm, ?_⟩
        rw [hrun]
        exact h
    · refine keep ?_
      rw [hrun]
      exact seen_congr (trieAt_clear _ ha'.generation_le)

/-- After some operations the generation is the one it was, or the trie that it had is as the
first clearing left it. -/
theorem generation_cases (S : m.Sound) {ops : List (Op κ ν)}
    (hops : ∀ q ∈ ops, q.isSingle = true ∨ q = .clear) :
    (m.run ops).2.generation = m.generation ∨
    (m.generation < (m.run ops).2.generation ∧ ∃ before after,
      ops = before ++ .clear :: after ∧
      (m.run ops).2.trieAt m.generation = (m.run before).2.current) := by
  induction ops using List.reverseRecOn with
  | nil => exact .inl rfl
  | append_singleton ops q ih =>
    have S' := (run_refines S ops).1
    have hrun : (m.run (ops ++ [q])).2 = ((m.run ops).2.apply q).state := by
      rw [run_append]
      rfl
    rw [hrun]
    rcases ih fun q hq => hops q (List.mem_append_left _ hq) with hg | ⟨hlt, before, after, heq, ht⟩
    · rcases hops q (by simp) with hq | rfl
      · exact .inl ((apply_acts S' hq).generation_eq.trans hg)
      · refine .inr ⟨?_, ops, [], rfl, ?_⟩
        · show _ < (m.run ops).2.clear.state.generation
          rw [generation_clear, hg]
          exact Nat.lt_succ_self _
        · show (m.run ops).2.clear.state.trieAt _ = _
          rw [trieAt_clear _ (Nat.le_of_eq hg.symm), ← hg, trieAt_generation]
    · have heq' : ops ++ [q] = before ++ .clear :: (after ++ [q]) := by simp [heq]
      rcases hops q (by simp) with hq | rfl
      · have A := apply_acts S' hq
        refine .inr ⟨by rw [A.generation_eq]; exact hlt, before, after ++ [q], heq', ?_⟩
        rw [A.other _ (Nat.le_of_lt hlt) (Nat.ne_of_lt hlt)]
        exact ht
      · refine .inr ⟨?_, before, after ++ [.clear], heq', ?_⟩
        · show _ < (m.run ops).2.clear.state.generation
          rw [generation_clear]
          exact Nat.lt_succ_of_lt hlt
        · show (m.run ops).2.clear.state.trieAt _ = _
          rw [trieAt_clear _ (Nat.le_of_lt hlt)]
          exact ht

/-- The effect `e` and the operations `before` and `after` answer, and `e` leaves, what the
operations `before`, the probe, and the operations `after` answer and leave one after another. -/
structure Linearizes (m : TrieMap κ ν) (p : Probe κ ν) (before after : List (Op κ ν))
    (e : Effect (TrieMap κ ν) (Reply κ ν)) : Prop where
  result : e.result = ((m.run before).2.apply (.probe p)).result
  replies : (m.run (before ++ after)).1 =
    (m.run before).1 ++ (((m.run before).2.apply (.probe p)).state.run after).1
  content : e.state.toList.Perm (((m.run before).2.apply (.probe p)).state.run after).2.toList
  size : e.state.size = (((m.run before).2.apply (.probe p)).state.run after).2.size

/-- It is enough to compare with what the probe does to the content. -/
theorem Linearizes.of_content (S : m.Sound) {p : Probe κ ν} {before after : List (Op κ ν)}
    {e : Effect (TrieMap κ ν) (Reply κ ν)} (hsound : e.state.Sound)
    (hresult : e.result = (Content.apply (m.run before).2.toList (.probe p)).1)
    (hreplies : (Content.run (m.run before).2.toList after).1 =
      (Content.run (Content.apply (m.run before).2.toList (.probe p)).2 after).1)
    (hcontent : e.state.toList.Perm
      (Content.run (Content.apply (m.run before).2.toList (.probe p)).2 after).2) :
    Linearizes m p before after e := by
  have Sb := (run_refines S before).1
  have R := apply_refines Sb (.probe p)
  obtain ⟨hres, hperm⟩ := R.agrees _ (.refl _)
  obtain ⟨Sa, hagrees⟩ := run_refines R.sound after
  obtain ⟨hrep, hfinal⟩ := hagrees _ hperm
  have hcontent' := hcontent.trans hfinal.symm
  refine ⟨hresult.trans hres.symm, ?_, hcontent', ?_⟩
  · rw [run_append, hrep, ← hreplies, ← ((run_refines Sb after).2 _ (.refl _)).1]
  · rw [hsound.size_eq, Sa.size_eq, hcontent'.length_eq]

/-- An interrupted probe and what interrupts it happen one after another. -/
theorem interrupted_linearizes (S : m.Sound) {p : Probe κ ν} (ha : m.begin p = .ok a)
    (hhead : a.head.isSome = true) (ops : List (Op κ ν)) :
    ∃ before after, ops.flatMap Op.parts = before ++ after ∧
      Linearizes m p before after (m.interrupted p fun m => (m.run ops).2) := by
  obtain ⟨path, K⟩ := S.keyed_current
  have hg : a.generation = m.generation := by
    obtain ⟨site, harrive, -⟩ := arrive_eq K.toLayout (m.hash p.key)
    rw [begin, harrive] at ha
    cases ha
    rfl
  have hparts : ∀ q ∈ ops.flatMap Op.parts, q.isSingle = true ∨ q = .clear := by
    intro q hq
    obtain ⟨op, _, hq⟩ := List.mem_flatMap.mp hq
    exact Op.single_of_mem_parts hq
  simp only [interrupted, ha, hhead, if_true, ← run_parts S ops]
  generalize hops : ops.flatMap Op.parts = parts at hparts
  obtain ⟨S', hhash, ha'⟩ := run_arrived S (arrived_arrive K.toLayout ha) parts
  rw [← hhash] at ha'
  have atEnd : ∀ {spec : Content κ ν → Except Fault (Reply κ ν) × Content κ ν},
      Acts (m.run parts).2 (m.run parts).2.generation ((m.run parts).2.finish a p) spec →
      spec = (fun l => Content.apply l (.probe p)) →
      Linearizes m p parts [] ((m.run parts).2.finish a p) := by
    rintro _ A rfl
    obtain ⟨hresult, hperm⟩ := (A.refines S').agrees _ (.refl _)
    exact .of_content S (A.sound S') hresult rfl hperm
  rcases finish_cases S' p ha' with ⟨hstate, hjudge⟩ | ⟨g, hcases, A⟩
  · -- nothing is written, and the answer is right for the moment that is seen
    obtain ⟨before, after, rfl, hseen⟩ := exists_seen S ha hparts
    have hkeep : Content.apply (m.run before).2.toList (.probe p) =
        (((m.run (before ++ after)).2.finish a p).result, (m.run before).2.toList) := by
      simp only [Content.apply, ← hseen, hjudge]
      rfl
    refine ⟨before, after, rfl, .of_content S (by rw [hstate]; exact S') (by rw [hkeep])
      (by rw [hkeep]) ?_⟩
    rw [hstate, hkeep, run_append]
    exact ((run_refines (run_refines S before).1 after).2 _ (.refl _)).2
  · rcases generation_cases S hparts with hsame | ⟨hlt, before, after, rfl, ht⟩
    · have hg' : g = (m.run parts).2.generation := by
        rcases hcases with h | h
        · rw [h, hg, hsame]
        · exact h
      exact ⟨parts, [], (List.append_nil _).symm, atEnd (hg' ▸ A) rfl⟩
    · rcases hcases with rfl | rfl
      · -- what is written goes to the generation that the first clearing detached
        rw [hg] at A
        refine ⟨before, .clear :: after, rfl, .of_content S (A.sound S') ?_ rfl ?_⟩
        · exact (A.acts.agrees _ (List.Perm.of_eq (congrArg Trie.toList ht))).1
        · have hcurrent : ((m.run (before ++ .clear :: after)).2.finish a p).state.toList =
              (m.run (before ++ .clear :: after)).2.toList := by
            rw [toList, toList, ← trieAt_generation, ← trieAt_generation, A.generation_eq,
              A.other _ (Nat.le_refl _) (Nat.ne_of_gt hlt)]
          rw [hcurrent, run_append]
          exact ((run_refines (run_refines S before).1 (.clear :: after)).2 _ (.refl _)).2
      · exact ⟨_, [], (List.append_nil _).symm, atEnd A rfl⟩

end TrieMap

variable {κ : Type u} {ν : Type v} [BEq κ] [EquivBEq κ] [BEq ν]

/-- Whatever operations run between the arrival of a probe and its first comparison, in every
moment that can come about: the probe and the parts of the operations answer, and leave, what they
answer and leave one after another, the probe at some place in the order of the parts. -/
theorem Moment.Reachable.interrupted_linearizable {hash : κ → UInt64} (law : Lawful hash)
    {s : Moment κ ν} (h : Reachable hash s) {p : Probe κ ν} {a : Arrival}
    (ha : s.map.begin p = .ok a) (hhead : a.head.isSome = true) (ops : List (Op κ ν)) :
    ∃ before after, ops.flatMap Op.parts = before ++ after ∧
      s.map.Linearizes p before after (s.map.interrupted p fun m => (m.run ops).2) :=
  TrieMap.interrupted_linearizes (h.good law).sound ha hhead ops

/-- A removal that is interrupted by a replacement of its entry, a clearing and insertions. -/
theorem Moment.Reachable.interrupted_linearizable_erase :
    let ops : List (Op Nat Nat) := [.swap 2 11, .clear, .insertMany [(2, 12), (3, 7)]]
    twoKeys.begin (.erase 2) = .ok ⟨0, ⟨0, 0, 15⟩, some 1⟩ ∧
      ∃ before after, ops.flatMap Op.parts = before ++ after ∧
        twoKeys.Linearizes (.erase 2) before after
          (twoKeys.interrupted (.erase 2) fun m => (m.run ops).2) :=
  ⟨rfl, Moment.Reachable.interrupted_linearizable (.const 0) reachable_twoKeys rfl rfl _⟩

/-- An insertion of many entries does not take effect at one point: a probe may find an entry
that the insertion itself replaces. -/
theorem insertMany_not_atomic :
    let many : Op Nat Nat := .insertMany [(2, 11), (1, 6), (2, 12)]
    Lawful (fun _ : Nat => 0) ∧ Moment.Reachable (fun _ => 0) ⟨twoKeys, []⟩ ∧
      twoKeys.begin (.get? 2) = .ok ⟨0, ⟨0, 0, 15⟩, some 1⟩ ∧
      ¬∃ before after, [many] = before ++ after ∧
        twoKeys.Linearizes (.get? 2) before after
          (twoKeys.interrupted (.get? 2) fun m => (m.run [many]).2) := by
  refine ⟨.const 0, reachable_twoKeys, rfl, ?_⟩
  have apart : ∀ v v' : Nat, v ≠ v' →
      (Except.ok (.value? (some v)) : Except Fault (Reply Nat Nat)) ≠ .ok (.value? (some v')) := by
    intro v v' hne h
    cases h
    exact hne rfl
  rintro ⟨before, after, heq, L⟩
  rcases List.singleton_eq_append_iff.mp heq with ⟨rfl, rfl⟩ | ⟨rfl, rfl⟩
  · exact absurd L.result (apart 11 10 (by decide))
  · exact absurd L.result (apart 11 12 (by decide))

end NibbleTrie
