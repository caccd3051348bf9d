import Mathlib
import ScriptTree.Proofs.Session

/-!
# Links against owners

A node is *misplaced* if the node that owns it is not the one it is linked to. A construction and the four edits
repair the link of what they move and touch no other, so they make no node misplaced (`Spliced.misplaced_iff`).

**`links_follow_ownership`**: in every well owned forest, whatever its links are, a construction over roots makes no
node misplaced and leaves the new node unlinked. To append or insert a root or a hole changes nothing about which nodes
are misplaced. To remove or replace a child changes that for the child at the place alone, which is the one returned and
ends unlinked. So after every session of constructions and edits no node is misplaced, no root is linked, and the audit
of every tree finds nothing.
-/

namespace ScriptTree

namespace Forest

variable {f f' : Forest} {e : Edit} {n : Node} {i c owner : NodeId} {old new : List NodeId} {out : Option NodeId}

/-- `c` has an owner and is not linked to it. -/
def Misplaced (f : Forest) (c : NodeId) : Prop := ∃ o, f.Owns o c ∧ f.parent? c ≠ some o

/-- **A splice with its links makes no node misplaced**, and what it takes out is misplaced no more. -/
theorem Spliced.misplaced_iff (hs : f.Spliced f' owner old new) (hl : f.Relinked f' owner old new) (hf : f.WellOwned)
    (hr : ∀ c ∈ new, f.IsRoot c) : f'.Misplaced c ↔ f.Misplaced c ∧ c ∉ old := by
  have hkept : c < f.size → c ∉ old → c ∉ new → f'.parent? c = f.parent? c := by
    intro hc ho hn
    rw [hl c hc, if_neg ho, if_neg hn]
  constructor
  · rintro ⟨o, ho, hp⟩
    have hold : c ∉ old := by
      intro hc
      have hn : c ∉ new := fun hn => (hr c hn).2 ⟨owner, hs.owns_old hc⟩
      exact hs.not_owns_old hf hc hn ⟨o, ho⟩
    rcases hs.owns_cases ho with hfo | ⟨rfl, hn⟩
    · have hn : c ∉ new := fun hn => (hr c hn).2 ⟨o, hfo⟩
      exact ⟨⟨o, hfo, by rwa [← hkept (hf.bounded hfo) hold hn]⟩, hold⟩
    · rw [hl c (hr c hn).1, if_neg hold, if_pos hn] at hp
      exact absurd rfl hp
  · rintro ⟨⟨o, ho, hp⟩, hold⟩
    have hn : c ∉ new := fun hn => (hr c hn).2 ⟨o, ho⟩
    exact ⟨o, hs.owns_kept ho hold, by rwa [hkept (hf.bounded ho) hold hn]⟩

/-- A root after a splice was taken out by it, or was a root and not put in. -/
theorem Spliced.isRoot_cases (hs : f.Spliced f' owner old new) (hc : f'.IsRoot c) (hlt : c < f.size) :
    c ∈ old ∨ f.IsRoot c ∧ c ∉ new := by
  by_cases ho : c ∈ old
  · exact Or.inl ho
  · refine Or.inr ⟨⟨hlt, ?_⟩, fun hn => hc.2 ⟨owner, hs.owns_new hn⟩⟩
    rintro ⟨o, hfo⟩
    exact hc.2 ⟨o, hs.owns_kept hfo ho⟩

theorem construct_misplaced_iff (hf : f.WellOwned) (hr : ∀ c ∈ n.children, f.IsRoot c)
    (h : f.construct n = .ok (i, f')) : f'.Misplaced c ↔ f.Misplaced c := by
  obtain ⟨-, -, hs⟩ := construct_spliced h
  simpa using hs.misplaced_iff (c := c) (construct_relinked h).2 hf hr

theorem edit_misplaced_iff (hf : f.WellOwned) (hfit : e.Fits f) (hr : ∀ c, e.incoming? = some c → f.IsRoot c)
    (h : f.edit e = .ok (out, f')) : f'.Misplaced c ↔ f.Misplaced c ∧ out ≠ some c := by
  have hm := (edit_spliced hfit h).misplaced_iff (c := c) (edit_relinked h) hf
    fun c hc => hr c (Option.mem_toList.1 hc)
  rwa [Option.mem_toList] at hm

/-- What an edit takes out is linked to nothing. -/
theorem edit_out_parent? (hf : f.WellOwned) (hfit : e.Fits f) (h : f.edit e = .ok (some c, f')) :
    f'.parent? c = none := by
  have hc : f.Owns e.owner c := (edit_spliced hfit h).owns_old List.mem_cons_self
  rw [edit_relinked h c (hf.bounded hc), if_pos (Option.mem_toList.2 rfl)]

/-- Every link is at the owner, and roots have none. -/
structure Tidy (f : Forest) : Prop where
  wellOwned : f.WellOwned
  placed : ∀ c, ¬ f.Misplaced c
  roots_unlinked : ∀ c, f.IsRoot c → f.parent? c = none

theorem tidy_empty : ({} : Forest).Tidy where
  wellOwned := wellOwned_empty
  placed := fun _ ⟨_, ho, _⟩ => owns_empty ho
  roots_unlinked := fun c hc => absurd hc.1 (Nat.not_lt_zero c)

/-- An old root of a tidy forest is unlinked after a splice. -/
theorem Tidy.unlinked_of_splice (ht : f.Tidy) (hs : f.Spliced f' owner old new) (hl : f.Relinked f' owner old new)
    (hc : f'.IsRoot c) (hlt : c < f.size) : f'.parent? c = none := by
  rw [hl c hlt]
  rcases hs.isRoot_cases hc hlt with ho | ⟨hr, hn⟩
  · rw [if_pos ho]
  · rw [if_neg hn, ht.roots_unlinked c hr, ite_self]

/-- **Building and editing keep a forest tidy.** -/
theorem Tidy.perform {a : Act} (ha : a.isTended = true) (ht : f.Tidy) (hl : a.Licit f)
    (h : f.perform a = .ok f') : f'.Tidy := by
  have hw := perform_wellOwned ht.wellOwned hl h
  cases a with
  | construct n =>
    obtain ⟨i, hc⟩ := exists_of_map_snd h
    obtain ⟨rfl, hsize, hs⟩ := construct_spliced hc
    obtain ⟨hnew, hrel⟩ := construct_relinked hc
    refine ⟨hw, fun c hm => ht.placed c ((construct_misplaced_iff ht.wellOwned hl.2 hc).1 hm), fun c hr => ?_⟩
    rcases Nat.lt_or_ge c f.size with hlt | hge
    · exact ht.unlinked_of_splice hs hrel hr hlt
    · have he : c = f.size := Nat.le_antisymm (Nat.le_of_lt_succ (hr.1.trans_eq hsize)) hge
      rw [he, hnew]
  | edit e =>
    obtain ⟨out, he⟩ := exists_of_map_snd h
    have hr := fun c hc => (hl.2 c hc).1
    refine ⟨hw, fun c hm => ht.placed c ((edit_misplaced_iff ht.wellOwned hl.1 hr he).1 hm).1, fun c hc => ?_⟩
    exact ht.unlinked_of_splice (edit_spliced hl.1 he) (edit_relinked he) hc (edit_size he ▸ hc.1)
  | pushRaw _ _ _ | link _ _ | repair _ | survey _ _ => cases ha

/-- Where no node is misplaced, an audit finds nothing. -/
theorem audit_of_placed (h : ∀ c, ¬ f.Misplaced c) (i : NodeId) (r : Reporter) : f.audit i r = (true, r) := by
  have hnone : f.strays i = [] := by
    refine List.flatMap_eq_nil_iff.2 fun o _ => ?_
    rw [straysOf, List.map_eq_nil_iff, List.filter_eq_nil_iff]
    intro c hc hp
    exact h c ⟨o, hc, by simpa using hp⟩
  rw [audit, hnone]
  rfl

end Forest

/-- **Links follow ownership**: what is moved is linked anew, and nothing else comes to be misplaced. -/
theorem links_follow_ownership :
    (∀ (f f' : Forest) (n : Node) (i : NodeId), f.WellOwned → (∀ c ∈ n.children, f.IsRoot c) →
      f.construct n = .ok (i, f') → (∀ c, f'.Misplaced c ↔ f.Misplaced c) ∧ f'.parent? i = none) ∧
    (∀ (f f' : Forest) (e : Edit) (out : Option NodeId), f.WellOwned → e.Fits f →
      (∀ c, e.incoming? = some c → f.IsRoot c) → f.edit e = .ok (out, f') →
        out = e.outgoing? f ∧
        match e with
        | .append _ _ _ | .insert _ _ _ _ => ∀ c, f'.Misplaced c ↔ f.Misplaced c
        | .remove _ _ _ | .replace _ _ _ =>
          (∀ c, f'.Misplaced c ↔ f.Misplaced c ∧ e.outgoing? f ≠ some c) ∧
            ∀ c, e.outgoing? f = some c → f'.parent? c = none) ∧
    ∀ (acts : List Act) (f : Forest), Run {} acts f → (∀ a ∈ acts, a.isTended = true) →
      (∀ c, ¬ f.Misplaced c) ∧ (∀ c, f.IsRoot c → f.parent? c = none) ∧ ∀ i r, f.audit i r = (true, r) := by
  refine ⟨fun f f' n i hf hr h => ?_, fun f f' e out hf hfit hr h => ?_, fun acts f h hacts => ?_⟩
  · exact ⟨fun c => Forest.construct_misplaced_iff hf hr h, (Forest.construct_relinked h).1⟩
  · obtain rfl := Forest.out_eq_outgoing? h
    have hm : ∀ c, f'.Misplaced c ↔ f.Misplaced c ∧ e.outgoing? f ≠ some c := fun c =>
      Forest.edit_misplaced_iff hf hfit hr h
    have hout : ∀ c, e.outgoing? f = some c → f'.parent? c = none := fun c hc =>
      Forest.edit_out_parent? hf hfit (hc ▸ h)
    refine ⟨rfl, ?_⟩
    cases e with
    | append owner role child => simpa [Edit.outgoing?] using hm
    | insert owner role index child => simpa [Edit.outgoing?] using hm
    | remove owner role index => exact ⟨hm, hout⟩
    | replace owner role child => exact ⟨hm, hout⟩
  · have ht : f.Tidy := h.invariant Forest.Tidy.perform hacts Forest.tidy_empty
    exact ⟨ht.placed, ht.roots_unlinked, Forest.audit_of_placed ht.placed⟩

/-- A block whose statements are linked to nothing and to each other. -/
def strayLinks : Forest :=
  ⟨#[{ form := .emptyStatement }, { form := .debuggerStatement, parent := some 0 },
    { form := .blockStatement, fields := [⟨.body, .many [some 0, some 1]⟩] }]⟩

theorem strayLinks_wellOwned : strayLinks.WellOwned := Forest.wellOwned_of_older (by decide)

/-- Such a block under a label, both of them linked elsewhere, and a statement that stands alone. -/
def strayLabel : Forest :=
  ⟨#[{ form := .emptyStatement }, { form := .debuggerStatement, parent := some 0 },
    { form := .blockStatement, fields := [⟨.body, .many [some 0, some 1]⟩], parent := some 5 },
    { form := .name "L" none, parent := some 1 },
    { form := .labeledStatement, fields := [⟨.label, .one (some 3)⟩, ⟨.body, .one (some 2)⟩] },
    { form := .emptyStatement, parent := some 1 }]⟩

theorem strayLabel_wellOwned : strayLabel.WellOwned := Forest.wellOwned_of_older (by decide)

/-- A construction and three edits among stray links, and a session that exchanges two statements of a block and takes
the argument out of a `return`. -/
theorem links_follow_ownership_exchange :
    let acts : List Act := buildTwoStatements ++ [.edit (.remove 2 .body 0), .edit (.insert 2 .body 1 (some 0)),
      .construct { form := .thisExpression },
      .construct { form := .returnStatement, fields := [⟨.argument, .one (some 3)⟩] },
      .edit (.replace 4 .argument none)]
    let f : Forest := ⟨#[{ form := .emptyStatement, parent := some 2 },
      { form := .debuggerStatement, parent := some 2 },
      { form := .blockStatement, fields := [⟨.body, .many [some 1, some 0]⟩] },
      { form := .thisExpression }, { form := .returnStatement, fields := [⟨.argument, .one none⟩] }]⟩
    let n : Node := { form := .blockStatement, fields := [⟨.body, .many [some 2]⟩] }
    (strayLinks.Misplaced 0 ∧ strayLinks.Misplaced 1) ∧
    (∃ f', strayLinks.construct n = .ok (3, f') ∧ ∀ c, f'.Misplaced c ↔ strayLinks.Misplaced c) ∧
    (∃ f', strayLinks.edit (.remove 2 .body 0) = .ok (some 0, f') ∧ f'.Misplaced 1 ∧ ¬ f'.Misplaced 0) ∧
    (∃ f', strayLabel.edit (.replace 4 .body (some 5)) = .ok (some 2, f') ∧
      (∀ c, f'.Misplaced c ↔ strayLabel.Misplaced c ∧ c ≠ 2) ∧ f'.parent? 2 = none) ∧
    (∃ f', strayLabel.edit (.insert 2 .body 1 (some 5)) = .ok (none, f') ∧
      ∀ c, f'.Misplaced c ↔ strayLabel.Misplaced c) ∧
    Run {} acts f ∧ (∀ a ∈ acts, a.isTended = true) ∧ (∀ c, ¬ f.Misplaced c) ∧ ∀ i r, f.audit i r = (true, r) := by
  intro acts f n
  have hstray : strayLinks.Misplaced 0 ∧ strayLinks.Misplaced 1 :=
    ⟨⟨2, by decide, by decide⟩, ⟨2, by decide, by decide⟩⟩
  have hroot : ∀ c, some 5 = some c → strayLabel.IsRoot c := fun c hc => Option.some.inj hc ▸ by decide
  obtain ⟨hconstruct, hedit, hsession⟩ := links_follow_ownership
  refine ⟨hstray, ⟨_, rfl, ?_⟩, ⟨_, rfl, ?_⟩, ⟨_, rfl, ?_⟩, ⟨_, rfl, ?_⟩, ?_⟩
  · exact (hconstruct strayLinks _ n 3 strayLinks_wellOwned (by decide) rfl).1
  · obtain ⟨-, hm, -⟩ := hedit strayLinks _ (.remove 2 .body 0) _ strayLinks_wellOwned ⟨_, rfl⟩
      (fun c hc => by cases hc) rfl
    exact ⟨(hm 1).2 ⟨hstray.2, by decide⟩, fun h0 => ((hm 0).1 h0).2 rfl⟩
  · obtain ⟨-, hm, hout⟩ := hedit strayLabel _ (.replace 4 .body (some 5)) _ strayLabel_wellOwned ⟨_, rfl⟩ hroot rfl
    refine ⟨fun c => (hm c).trans (and_congr_right fun _ => ?_), hout 2 rfl⟩
    exact (Option.some_inj.trans eq_comm).not
  · exact (hedit strayLabel _ (.insert 2 .body 1 (some 5)) _ strayLabel_wellOwned ⟨_, rfl⟩ hroot rfl).2
  have hremove : twoStatements.perform (.edit (.remove 2 .body 0)) =
      .ok ⟨#[{ form := .emptyStatement }, { form := .debuggerStatement, parent := some 2 },
        { form := .blockStatement, fields := [⟨.body, .many [some 1]⟩] }]⟩ := rfl
  have hbuild : Forest.perform ⟨#[{ form := .emptyStatement, parent := some 2 },
        { form := .debuggerStatement, parent := some 2 },
        { form := .blockStatement, fields := [⟨.body, .many [some 1, some 0]⟩] }]⟩
        (.construct { form := .thisExpression }) =
      .ok ⟨#[{ form := .emptyStatement, parent := some 2 }, { form := .debuggerStatement, parent := some 2 },
        { form := .blockStatement, fields := [⟨.body, .many [some 1, some 0]⟩] }, { form := .thisExpression }]⟩ := rfl
  have hrun : Run {} acts f := by
    refine run_buildTwoStatements.append (.cons ⟨⟨_, rfl⟩, fun c hc => by cases hc⟩ hremove ?_)
    refine .cons ⟨⟨_, rfl⟩, fun c hc => ?_⟩ rfl (.cons ⟨by decide, by decide⟩ hbuild ?_)
    · cases hc
      exact ⟨by decide, fun hb => absurd (Forest.IsRoot.eq_of_below (by decide) hb) (by decide)⟩
    · exact .cons ⟨by decide, by decide⟩ rfl (.cons ⟨⟨_, rfl⟩, fun c hc => by cases hc⟩ rfl (.nil f))
  have hacts : ∀ a ∈ acts, a.isTended = true := by simp [acts, buildTwoStatements, Act.isTended]
  obtain ⟨hplaced, -, haudit⟩ := hsession acts f hrun hacts
  exact ⟨hrun, hacts, hplaced, haudit⟩

end ScriptTree
