import Mathlib
import ScriptTree.Forest.Walk
import ScriptTree.Proofs.Ownership

/-!
# The work list against the recursion

A walk keeps a list of nodes still to visit. Here it is compared with the procedure that visits a node and then, one
after the other, the trees of its children, as they stand right after the visit of the node. Neither is bounded by a
number of visits:

* `Recursion visit pending f s calls f' s'`: the recursive procedure on the nodes `pending`, from the forest `f` and
  the state `s`, makes the calls `calls` and ends in `f'` and `s'`;
* `Loop`: the same for the loop that takes the next node off a list and puts its children in front;
* `Recursion.loop`: the loop makes the calls of the recursion;
* `Detaching`: callbacks that put no node under an owner. With such a callback the recursion ends
  (`Detaching.exists_recursion`) and visits no node twice (`Recursion.nodup`), so the size of the forest is enough for
  `Forest.walk` (`Recursion.walk_eq`).
-/

namespace ScriptTree

/-- A call of a callback: the node, and the forest and the state that it was given. -/
structure Call (σ : Type) where
  node : NodeId
  forest : Forest
  state : σ

variable {σ : Type} {visit : NodeId → Forest → σ → Step σ}

/-- The nodes that come next below a visited node. -/
def Step.below (step : Step σ) (i : NodeId) : List NodeId := if step.descend then step.forest.children i else []

/-- The recursive walk: a call for a node, then its children from left to right, then the rest. -/
inductive Recursion (visit : NodeId → Forest → σ → Step σ) :
    List NodeId → Forest → σ → List (Call σ) → Forest → σ → Prop
  | nil (f : Forest) (s : σ) : Recursion visit [] f s [] f s
  | cons {i : NodeId} {rest : List NodeId} {f f₁ f₂ : Forest} {s s₁ s₂ : σ} {calls calls' : List (Call σ)} :
      Recursion visit ((visit i f s).below i) (visit i f s).forest (visit i f s).state calls f₁ s₁ →
      Recursion visit rest f₁ s₁ calls' f₂ s₂ →
      Recursion visit (i :: rest) f s (⟨i, f, s⟩ :: (calls ++ calls')) f₂ s₂

/-- The loop over a work list: a call for the first node, whose children then stand before the rest. -/
inductive Loop (visit : NodeId → Forest → σ → Step σ) :
    List NodeId → Forest → σ → List (Call σ) → Forest → σ → Prop
  | done (f : Forest) (s : σ) : Loop visit [] f s [] f s
  | next {i : NodeId} {rest : List NodeId} {f f' : Forest} {s s' : σ} {calls : List (Call σ)} :
      Loop visit ((visit i f s).below i ++ rest) (visit i f s).forest (visit i f s).state calls f' s' →
      Loop visit (i :: rest) f s (⟨i, f, s⟩ :: calls) f' s'

variable {pending rest : List NodeId} {f f' f₀ f₁ f₂ : Forest} {s s' s₁ s₂ : σ} {calls calls₁ calls₂ : List (Call σ)}

namespace Recursion

theorem append (h₁ : Recursion visit pending f s calls₁ f₁ s₁) (h₂ : Recursion visit rest f₁ s₁ calls₂ f₂ s₂) :
    Recursion visit (pending ++ rest) f s (calls₁ ++ calls₂) f₂ s₂ := by
  induction h₁ with
  | nil => exact h₂
  | cons hbelow _ _ ih =>
    have h := Recursion.cons hbelow (ih h₂)
    simpa using h

/-- The recursion has one outcome. -/
theorem unique (h₁ : Recursion visit pending f s calls₁ f₁ s₁) (h₂ : Recursion visit pending f s calls₂ f₂ s₂) :
    calls₁ = calls₂ ∧ f₁ = f₂ ∧ s₁ = s₂ := by
  induction h₁ generalizing calls₂ f₂ s₂ with
  | nil => cases h₂; exact ⟨rfl, rfl, rfl⟩
  | cons _ _ ihbelow ihrest =>
    cases h₂ with
    | cons hbelow hrest =>
      obtain ⟨rfl, rfl, rfl⟩ := ihbelow hbelow
      obtain ⟨rfl, rfl, rfl⟩ := ihrest hrest
      exact ⟨rfl, rfl, rfl⟩

/-- **The loop makes the calls of the recursion**, whatever else is pending. -/
theorem loop_append (h : Recursion visit pending f s calls₁ f₁ s₁) (hrest : Loop visit rest f₁ s₁ calls₂ f₂ s₂) :
    Loop visit (pending ++ rest) f s (calls₁ ++ calls₂) f₂ s₂ := by
  induction h generalizing rest calls₂ f₂ s₂ with
  | nil => exact hrest
  | cons _ _ ihbelow ihrest =>
    have h := Loop.next (ihbelow (ihrest hrest))
    simpa using h

theorem loop (h : Recursion visit pending f s calls f' s') : Loop visit pending f s calls f' s' := by
  simpa using h.loop_append (.done f' s')

end Recursion

namespace Loop

/-- With as many visits as the loop makes calls, the bounded walk ends as the loop does. -/
theorem walkFrom_eq (h : Loop visit pending f s calls f' s') {fuel : Nat} (hf : calls.length ≤ fuel) :
    Forest.walkFrom visit fuel pending f s = (f', s') := by
  induction h generalizing fuel with
  | done f s => cases fuel <;> rfl
  | next _ ih =>
    cases fuel with
    | zero => cases hf
    | succ fuel => exact ih (Nat.le_of_succ_le_succ hf)

end Loop

/-- A callback that also keeps a list of its calls. -/
def recorded (visit : NodeId → Forest → σ → Step σ) (i : NodeId) (f : Forest) (s : σ × List (Call σ)) :
    Step (σ × List (Call σ)) :=
  let step := visit i f s.1
  ⟨step.forest, (step.state, s.2 ++ [⟨i, f, s.1⟩]), step.descend⟩

/-- Keeping a list of the calls changes nothing else. -/
theorem Loop.exists_recorded (h : Loop visit pending f s calls f' s') (log : List (Call σ)) :
    ∃ calls', calls'.length = calls.length ∧
      Loop (recorded visit) pending f (s, log) calls' f' (s', log ++ calls) := by
  induction h generalizing log with
  | done f s => exact ⟨[], rfl, by simpa using Loop.done f (s, log)⟩
  | @next i rest f _ s _ calls _ ih =>
    obtain ⟨calls', hlen, hloop⟩ := ih (log ++ [⟨i, f, s⟩])
    refine ⟨⟨i, f, (s, log)⟩ :: calls', by simp [hlen], ?_⟩
    rw [List.append_assoc] at hloop
    exact Loop.next hloop

/-! ## Callbacks that only take children out -/

/-- Every node has kept some of its children, in whatever order, and got no other ones. -/
def Forest.Thinned (f f' : Forest) : Prop := ∀ o, (f'.children o).Subperm (f.children o)

namespace Forest.Thinned

theorem refl (f : Forest) : f.Thinned f := fun _ => List.Subperm.refl _

theorem trans (h : f.Thinned f₁) (h' : f₁.Thinned f₂) : f.Thinned f₂ := fun o => (h' o).trans (h o)

theorem owns (h : f.Thinned f') {o c : NodeId} (hc : f'.Owns o c) : f.Owns o c := (h o).subset hc

theorem below (h : f.Thinned f') {i j : NodeId} (hb : f'.Below i j) : f.Below i j := hb.mono h.owns

theorem nodup (h : f.Thinned f') (hf : f.WellOwned) (o : NodeId) : (f'.children o).Nodup := by
  obtain ⟨kept, hperm, hsub⟩ := h o
  exact hperm.nodup_iff.1 (hsub.nodup (hf.nodup o))

theorem wellOwned (h : f.Thinned f') (hs : f.size ≤ f'.size) (hf : f.WellOwned) : f'.WellOwned where
  bounded hc := (hf.bounded (h.owns hc)).trans_le hs
  nodup := h.nodup hf
  unique hc hc' := hf.unique (h.owns hc) (h.owns hc')
  acyclic i hi := hf.acyclic i (Relation.TransGen.mono (fun _ _ => h.owns) _ _ hi)

end Forest.Thinned

/-- Nodes whose trees do not meet, each listed once. -/
def Forest.Apart (f : Forest) (is : List NodeId) : Prop :=
  is.Nodup ∧ ∀ i ∈ is, ∀ j ∈ is, ∀ k, f.Below i k → f.Below j k → i = j

/-- A callback that attaches no node: whatever it does, no node gets a child that it did not have. -/
def Detaching (visit : NodeId → Forest → σ → Step σ) : Prop :=
  ∀ i (f : Forest) s, f.Thinned (visit i f s).forest

theorem Step.mem_below {step : Step σ} {i c : NodeId} (h : c ∈ step.below i) : step.forest.Owns i c := by
  unfold Step.below at h
  split at h
  · exact h
  · cases h

theorem Step.nodup_below {step : Step σ} (h : f.WellOwned) (ht : f.Thinned step.forest) (i : NodeId) :
    (step.below i).Nodup := by
  unfold Step.below
  split
  · exact ht.nodup h i
  · exact List.nodup_nil

/-- The children that a callback leaves were children before it. -/
theorem Detaching.owns_below (hv : Detaching visit) {i c : NodeId} (h : c ∈ (visit i f s).below i) : f.Owns i c :=
  (hv i f s).owns (Step.mem_below h)

namespace Recursion

theorem thinned (hv : Detaching visit) (h : Recursion visit pending f s calls f' s') : f.Thinned f' := by
  induction h with
  | nil f s => exact .refl f
  | @cons i _ f _ _ s _ _ _ _ _ _ ihbelow ihrest => exact ((hv i f s).trans ihbelow).trans ihrest

/-- Calls are made for nodes of the pending trees only. -/
theorem exists_below (hv : Detaching visit) (h : Recursion visit pending f s calls f' s') :
    ∀ call ∈ calls, ∃ i ∈ pending, f.Below i call.node := by
  induction h with
  | nil => intro call hc; cases hc
  | @cons i rest f f₁ f₂ s s₁ s₂ calls calls' hbelow _ ihbelow ihrest =>
    intro call hc
    rcases List.mem_cons.1 hc with rfl | hc
    · exact ⟨i, List.mem_cons_self, Relation.ReflTransGen.refl⟩
    rcases List.mem_append.1 hc with hc | hc
    · obtain ⟨c, hmem, hb⟩ := ihbelow call hc
      have ho : f.Owns i c := hv.owns_below hmem
      exact ⟨i, List.mem_cons_self, ho.below.trans ((hv i f s).below hb)⟩
    · obtain ⟨j, hmem, hb⟩ := ihrest call hc
      exact ⟨j, List.mem_cons_of_mem i hmem, ((hv i f s).trans (hbelow.thinned hv)).below hb⟩

/-- **The recursion visits no node twice**, if the pending trees do not meet. -/
theorem nodup (hv : Detaching visit) (hf : f₀.WellOwned) (h : Recursion visit pending f s calls f' s')
    (ht : f₀.Thinned f) (ha : f₀.Apart pending) : (calls.map Call.node).Nodup := by
  induction h with
  | nil => exact List.nodup_nil
  | @cons i rest f f₁ f₂ s s₁ s₂ calls calls' hbelow hrest ihbelow ihrest =>
    have ht' : f₀.Thinned (visit i f s).forest := ht.trans (hv i f s)
    have ht₁ : f₀.Thinned f₁ := ht'.trans (hbelow.thinned hv)
    obtain ⟨hi, hr⟩ := List.nodup_cons.1 ha.1
    -- every later call is for a node of the tree of a child of `i`, or of the tree of one of `rest`
    have hchild : ∀ k ∈ calls.map Call.node, ∃ c, f₀.Owns i c ∧ f₀.Below c k := by
      intro k hk
      obtain ⟨call, hc, rfl⟩ := List.mem_map.1 hk
      obtain ⟨c, hmem, hb⟩ := hbelow.exists_below hv call hc
      exact ⟨c, ht'.owns (Step.mem_below hmem), ht'.below hb⟩
    have hother : ∀ k ∈ calls'.map Call.node, ¬ f₀.Below i k := by
      intro k hk hik
      obtain ⟨call, hc, rfl⟩ := List.mem_map.1 hk
      obtain ⟨j, hmem, hb⟩ := hrest.exists_below hv call hc
      have he := ha.2 i List.mem_cons_self j (List.mem_cons_of_mem i hmem) _ hik (ht₁.below hb)
      exact hi (he ▸ hmem)
    have hapart : f₀.Apart ((visit i f s).below i) :=
      ⟨Step.nodup_below hf ht' i, fun c hc c' hc' k => hf.siblings_apart (ht'.owns (Step.mem_below hc))
        (ht'.owns (Step.mem_below hc'))⟩
    have hrest' : f₀.Apart rest :=
      ⟨hr, fun j hj j' hj' => ha.2 j (List.mem_cons_of_mem i hj) j' (List.mem_cons_of_mem i hj')⟩
    simp only [List.map_cons, List.map_append, List.nodup_cons, List.mem_append, not_or]
    refine ⟨⟨fun hk => ?_, fun hk => hother i hk .refl⟩, ?_⟩
    · obtain ⟨c, hc, hb⟩ := hchild i hk
      exact hf.not_below_owner hc hb
    · refine List.nodup_append.2 ⟨ihbelow ht' hapart, ihrest ht₁ hrest', fun k hk k' hk' he => ?_⟩
      obtain ⟨c, hc, hb⟩ := hchild k hk
      exact hother k' hk' (he ▸ hc.below.trans hb)

end Recursion

/-- **The recursion ends**: ownership has no circle, and the callback makes none. -/
theorem Detaching.exists_recursion (hv : Detaching visit) (hf : f₀.WellOwned) (pending : List NodeId)
    (ht : f₀.Thinned f) (s : σ) : ∃ calls f' s', Recursion visit pending f s calls f' s' := by
  -- a list of nodes each of which can be dealt with
  have hlist : ∀ is : List NodeId,
      (∀ i ∈ is, ∀ f, f₀.Thinned f → ∀ s, ∃ calls f' s', Recursion visit [i] f s calls f' s') →
      ∀ f, f₀.Thinned f → ∀ s, ∃ calls f' s', Recursion visit is f s calls f' s' := by
    intro is
    induction is with
    | nil => exact fun _ f _ s => ⟨[], f, s, .nil f s⟩
    | cons i is ih =>
      intro hall f ht s
      obtain ⟨calls₁, f₁, s₁, h₁⟩ := hall i List.mem_cons_self f ht s
      obtain ⟨calls₂, f₂, s₂, h₂⟩ :=
        ih (fun j hj => hall j (List.mem_cons_of_mem i hj)) f₁ (ht.trans (h₁.thinned hv)) s₁
      exact ⟨_, f₂, s₂, h₁.append h₂⟩
  have hone : ∀ i f, f₀.Thinned f → ∀ s, ∃ calls f' s', Recursion visit [i] f s calls f' s' := by
    intro i
    induction i using hf.descend with
    | step i ih =>
      intro f ht s
      have ht' : f₀.Thinned (visit i f s).forest := ht.trans (hv i f s)
      obtain ⟨calls, f₁, s₁, h⟩ := hlist ((visit i f s).below i)
        (fun c hc => ih c (ht'.owns (Step.mem_below hc))) _ ht' (visit i f s).state
      exact ⟨_, f₁, s₁, .cons h (.nil f₁ s₁)⟩
  exact hlist pending (fun i _ => hone i) f ht s

section Walks

variable {root : NodeId}

theorem Recursion.nodup_of_root (hv : Detaching visit) (hf : f.WellOwned)
    (h : Recursion visit [root] f s calls f' s') : (calls.map Call.node).Nodup := by
  refine h.nodup hv hf (.refl f) ⟨List.nodup_singleton root, fun i hi j hj _ _ _ => ?_⟩
  rw [List.mem_singleton.1 hi, List.mem_singleton.1 hj]

/-- A walk makes at most as many calls as there are nodes. -/
theorem Recursion.length_le (hv : Detaching visit) (hf : f.WellOwned) (hroot : root < f.size)
    (h : Recursion visit [root] f s calls f' s') : calls.length ≤ f.size := by
  have hsub : calls.map Call.node ⊆ List.range f.size := by
    intro k hk
    obtain ⟨call, hc, rfl⟩ := List.mem_map.1 hk
    obtain ⟨i, hi, hb⟩ := h.exists_below hv call hc
    rw [List.mem_singleton.1 hi] at hb
    exact List.mem_range.2 (hf.below_lt_size hroot hb)
  simpa using (List.subperm_of_subset (h.nodup_of_root hv hf) hsub).length_le

/-- The size of the forest is enough for a walk. -/
theorem Recursion.walk_eq (hv : Detaching visit) (hf : f.WellOwned) (hroot : root < f.size)
    (h : Recursion visit [root] f s calls f' s') : f.walk root s visit = (f', s') :=
  h.loop.walkFrom_eq (h.length_le hv hf hroot)

/-- A walk that keeps a list of its calls keeps those of the recursion. -/
theorem Recursion.walk_recorded_eq (hv : Detaching visit) (hf : f.WellOwned) (hroot : root < f.size)
    (h : Recursion visit [root] f s calls f' s') : f.walk root (s, []) (recorded visit) = (f', s', calls) := by
  obtain ⟨calls', hlen, hloop⟩ := h.loop.exists_recorded []
  exact hloop.walkFrom_eq (hlen ▸ h.length_le hv hf hroot)

/-- What every call keeps, a walk keeps. -/
theorem Forest.walkFrom_invariant {P : Forest → Prop} (hP : ∀ i f s, P f → P (visit i f s).forest) :
    ∀ (fuel : Nat) (pending : List NodeId) (f : Forest) (s : σ), P f → P (walkFrom visit fuel pending f s).1
  | 0, _, _, _, h => h
  | _ + 1, [], _, _, h => h
  | fuel + 1, i :: _, f, s, h => walkFrom_invariant hP fuel _ _ _ (hP i f s h)

end Walks

end ScriptTree
