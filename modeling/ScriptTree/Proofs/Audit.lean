import Mathlib
import ScriptTree.Proofs.Dependence
import ScriptTree.Proofs.History

/-!
# Audits

An audit reports the strays of a tree: the children whose link is not the node that owns them. Links may be wrong in any
number of places; all that is asked of them is that they end (`Forest.LinksEnd`), so that the file of a report can be
looked up along them.

* `Forest.mem_strays`, `Forest.strays_sorted`: the strays are the nodes strictly below the root that are linked
  elsewhere, in pre-order of their owners and then in the order of the children;
* `Forest.StrayReport`: what the report of a stray says;
* `Reporter.Informed`: reports that are recorded, told and printed one after the other;
* `Forest.walk_check`: an audit in one walk, which reports each stray when it comes to its owner.

**`audit_reports_violations`**: an audit finds a tree sound exactly if every node strictly below the root is linked to
its owner. It makes one report for each child that is linked elsewhere, by owner in pre-order and then in the order of
the children, and has these reports made and nothing else. No report is about the root, whose link may be set to
anything without a change of the strays and of the verdict. The audit is one walk, and no node is changed by it.
-/

namespace ScriptTree

open Relation

namespace Forest

variable {f : Forest} {i o c r : NodeId}

/-! ## Links that end -/

/-- Links lead to nodes of the forest, and never in a circle. -/
structure LinksEnd (f : Forest) : Prop where
  bounded : ∀ {i p}, f.parent? i = some p → p < f.size
  acyclic : ∀ i, ¬ TransGen (fun i p => f.parent? i = some p) i i

/-- If every link leads to a younger node, links end. -/
theorem linksEnd_of_younger (h : ∀ i < f.size, ∀ p ∈ f.parent? i, i < p ∧ p < f.size) : f.LinksEnd := by
  have hlink : ∀ {i p}, f.parent? i = some p → i < p ∧ p < f.size := by
    intro i p hp
    obtain ⟨n, hn, -⟩ := exists_of_parent? hp
    exact h i (lt_size_of_get? hn) p hp
  refine ⟨fun hp => (hlink hp).2, fun i hi => ?_⟩
  have hlt : ∀ {a b}, TransGen (fun i p => f.parent? i = some p) a b → a < b := by
    intro a b hab
    induction hab with
    | single hp => exact (hlink hp).1
    | tail _ hp ih => exact ih.trans (hlink hp).1
  exact Nat.lt_irrefl i (hlt hi)

/-- Links that end lead somewhere from every node. -/
theorem LinksEnd.exists_ascent (h : f.LinksEnd) (hi : i < f.size) : ∃ chain, f.Ascent i chain := by
  have hwf : WellFounded (fun p i => f.parent? i = some p) := by
    refine @wellFounded_of_acyclic _ f.size (fun {p i} hp => ⟨h.bounded hp, ?_⟩) fun i hi => ?_
    · obtain ⟨n, hn, -⟩ := exists_of_parent? hp
      exact lt_size_of_get? hn
    · exact h.acyclic i (transGen_swap.1 hi)
  induction i using hwf.induction with
  | _ i ih =>
    cases hp : f.parent? i with
    | none => exact ⟨_, .top hi hp⟩
    | some p =>
      obtain ⟨chain, hchain⟩ := ih p hp (h.bounded hp)
      exact ⟨_, .link hp hchain⟩

/-! ## The strays of a tree -/

/-- `c` is a child of `o` and is linked elsewhere. -/
def Stray (f : Forest) (o c : NodeId) : Prop := f.Owns o c ∧ f.parent? c ≠ some o

/-- One child comes before another: its owner comes first in pre-order, or both have one owner and it comes first among
the children. -/
def Earlier (f : Forest) (r : NodeId) (p q : NodeId × NodeId) : Prop :=
  (f.preorder r).idxOf p.1 < (f.preorder r).idxOf q.1 ∨
    p.1 = q.1 ∧ (f.children p.1).idxOf p.2 < (f.children p.1).idxOf q.2

theorem mem_straysOf : (o, c) ∈ f.straysOf i ↔ o = i ∧ f.Stray i c := by
  simp only [straysOf, List.mem_map, List.mem_filter, bne_iff_ne, Prod.mk.injEq, Stray, Owns]
  constructor
  · rintro ⟨c', ⟨hc, hp⟩, rfl, rfl⟩
    exact ⟨rfl, hc, hp⟩
  · rintro ⟨rfl, hc, hp⟩
    exact ⟨c, ⟨hc, hp⟩, rfl, rfl⟩

/-- **The strays of a tree are its nodes below the root that are linked elsewhere.** -/
theorem mem_strays (hf : f.WellOwned) (hr : r < f.size) : (o, c) ∈ f.strays r ↔ f.Below r o ∧ f.Stray o c := by
  simp only [strays, List.mem_flatMap, mem_straysOf, mem_preorder hf hr]
  constructor
  · rintro ⟨i, hi, rfl, hc⟩
    exact ⟨hi, hc⟩
  · rintro ⟨ho, hc⟩
    exact ⟨o, ho, rfl, hc⟩

/-- In a list without repetition the positions increase. -/
theorem pairwise_idxOf_lt {l : List NodeId} (h : l.Nodup) : l.Pairwise fun a b => l.idxOf a < l.idxOf b := by
  rw [List.pairwise_iff_getElem]
  intro m n hm hn hlt
  rwa [h.idxOf_getElem m hm, h.idxOf_getElem n hn]

/-- **The strays are listed by owner in pre-order, and then by their place under the owner.** -/
theorem strays_sorted (hf : f.WellOwned) (hr : r < f.size) : (f.strays r).Pairwise (f.Earlier r) := by
  refine List.pairwise_flatMap.2 ⟨fun o _ => ?_, ?_⟩
  · refine List.pairwise_map.2 (List.Pairwise.imp ?_ ((pairwise_idxOf_lt (hf.nodup o)).filter _))
    exact fun hlt => Or.inr ⟨rfl, hlt⟩
  · refine (pairwise_idxOf_lt (nodup_preorder hf hr)).imp fun {o o'} hlt => ?_
    rintro ⟨a, c⟩ ha ⟨b, c'⟩ hb
    obtain ⟨rfl, -⟩ := mem_straysOf.1 ha
    obtain ⟨rfl, -⟩ := mem_straysOf.1 hb
    exact Or.inl hlt

/-! ## The report of a stray -/

/-- The file of a report at a node: that of the nearest program on its chain of links, or else the current one. -/
def ReportFile (f : Forest) (current : String) (c : NodeId) (file : String) : Prop :=
  ∃ chain, f.Ascent c chain ∧
    ((∀ j ∈ chain, f.kind? j ≠ some .program) ∧ file = current ∨
      ∃ below p above, chain = below ++ p :: above ∧ (∀ j ∈ below, f.kind? j ≠ some .program) ∧
        (f.get? p).map Node.form = some (.program file))

/-- What the report of a child `c` of `o` that is linked elsewhere says. -/
structure StrayReport (f : Forest) (current : String) (o c : NodeId) (d : Diagnostic) : Prop where
  severity : d.severity = .error
  message : ∃ child owner linked, f.kind? c = some child ∧ f.kind? o = some owner ∧
    (f.parent? c = none ∧ linked = "null" ∨ ∃ p k, f.parent? c = some p ∧ f.kind? p = some k ∧ linked = k.text) ∧
    d.message = child.text ++ " is a child of " ++ owner.text ++ " but its parent link points to " ++ linked
  line : ∃ n, f.get? c = some n ∧ d.line = n.span.line.getD 0
  column : d.column = 0
  filename : f.ReportFile current c d.filename

theorem kindText_eq {k : Kind} (h : f.kind? i = some k) : f.kindText i = k.text := by simp [kindText, h]

/-- The file of the nearest program is found along the links of the node, right or wrong. -/
theorem reportFile_reportOf (h : f.LinksEnd) (hc : c < f.size) (current : String) (severity : Severity)
    (message : String) : f.ReportFile current c (reportOf f current severity message c).filename := by
  obtain ⟨chain, hchain⟩ := h.exists_ascent hc
  refine ⟨chain, hchain, ?_⟩
  have hprogram : f.program? c = chain.find? (f.isKind .program) := by rw [program?, hchain.lineage_eq]
  cases hp : f.program? c with
  | none =>
    refine Or.inl ⟨fun j hj hkind => ?_, by simp [reportOf, hp]⟩
    exact List.find?_eq_none.1 (hprogram.symm.trans hp) j hj (isKind_iff.2 hkind)
  | some p =>
    obtain ⟨hkind, below, above, hsplit, hbelow⟩ := List.find?_eq_some_iff_append.1 (hprogram.symm.trans hp)
    refine Or.inr ⟨below, p, above, hsplit, fun j hj hj' => ?_, ?_⟩
    · simpa [isKind_iff.2 hj'] using hbelow j hj
    · have hsome : f.programName? p ≠ none := fun hnone => programName?_eq_none_iff.1 hnone (isKind_iff.1 hkind)
      obtain ⟨file, hfile⟩ := Option.ne_none_iff_exists'.1 hsome
      rw [← programName?_eq_some_iff, hfile]
      simp [reportOf, hp, hfile]

theorem strayReport_reportOf (hf : f.WellOwned) (h : f.LinksEnd) (hc : f.Owns o c) (current : String) :
    f.StrayReport current o c (reportOf f current .error (f.strayMessage o c) c) := by
  have hlt : c < f.size := hf.bounded hc
  obtain ⟨n, hn⟩ := get?_isSome hlt
  obtain ⟨child, hchild⟩ := exists_kind? hlt
  obtain ⟨owner, howner⟩ := exists_kind? hc.lt_size
  refine ⟨rfl, ?_, ⟨n, hn, by simp [reportOf, line?, hn]⟩, rfl, reportFile_reportOf h hlt current _ _⟩
  refine ⟨child, owner, _, hchild, howner, ?_, by rw [← kindText_eq hchild, ← kindText_eq howner]; rfl⟩
  cases hp : f.parent? c with
  | none => exact Or.inl ⟨rfl, rfl⟩
  | some p =>
    obtain ⟨k, hk⟩ := exists_kind? (h.bounded hp)
    exact Or.inr ⟨p, k, rfl, hk, kindText_eq hk⟩

end Forest

/-! ## What a reporter makes of errors -/

namespace Reporter

/-- What a reporter has become after the diagnostics `ds`, none of them a warning: each was printed, each was told to
the listener if there is one, and each was recorded, and is still on record unless the listener clears the records. -/
structure Informed (r : Reporter) (ds : List Diagnostic) (r' : Reporter) : Prop where
  filename : r'.filename = r.filename
  listener : r'.listener = r.listener
  printed : r'.printed.toList = r.printed.toList ++ ds.map Diagnostic.printed
  records : r.listener ≠ some .clear → r'.records.toList = r.records.toList ++ ds
  cleared : r.listener = some .clear → r'.records.toList = if ds = [] then r.records.toList else []
  unheard : r.listener = none → r'.journal = r.journal
  told : r.listener ≠ none →
    r'.journal.toList.map Notice.text = r.journal.toList.map Notice.text ++ ds.map Diagnostic.text

theorem Informed.refl (r : Reporter) : r.Informed [] r := by constructor <;> simp

theorem informed_record (r : Reporter) {d : Diagnostic} (h : d.severity ≠ .warning) : r.Informed [d] (r.record d) := by
  obtain ⟨records, filename, listener, journal, printed⟩ := r
  rcases listener with _ | _ | _ | _ <;> constructor <;> simp [record, enter, respond, print, clear, h]

theorem Informed.trans {r r₁ r₂ : Reporter} {ds ds' : List Diagnostic} (h : r.Informed ds r₁)
    (h' : r₁.Informed ds' r₂) : r.Informed (ds ++ ds') r₂ where
  filename := h'.filename.trans h.filename
  listener := h'.listener.trans h.listener
  printed := by rw [h'.printed, h.printed, List.map_append, List.append_assoc]
  records hl := by rw [h'.records (h.listener ▸ hl), h.records hl, List.append_assoc]
  cleared hl := by
    rw [h'.cleared (h.listener ▸ hl), h.cleared hl]
    cases ds <;> cases ds' <;> simp
  unheard hl := (h'.unheard (h.listener ▸ hl)).trans (h.unheard hl)
  told hl := by rw [h'.told (h.listener ▸ hl), h.told hl, List.map_append, List.append_assoc]

theorem filename_record (r : Reporter) (d : Diagnostic) : (r.record d).filename = r.filename := by
  obtain ⟨records, filename, listener, journal, printed⟩ := r
  rcases listener with _ | _ | _ | _ <;> simp [record, enter, respond, print, clear]
  split <;> rfl

/-- **A run of errors**, one after the other. -/
theorem informed_foldl_record (r : Reporter) {ds : List Diagnostic} (h : ∀ d ∈ ds, d.severity ≠ .warning) :
    r.Informed ds (ds.foldl record r) := by
  induction ds generalizing r with
  | nil => exact .refl r
  | cons d ds ih =>
    have hfirst := r.informed_record (h d List.mem_cons_self)
    exact hfirst.trans (ih (r.record d) fun d' hd' => h d' (List.mem_cons_of_mem d hd'))

end Reporter

namespace Forest

variable {f : Forest} {o c r : NodeId}

/-- The report of a stray. -/
def strayReport (f : Forest) (current : String) (p : NodeId × NodeId) : Diagnostic :=
  reportOf f current .error (f.strayMessage p.1 p.2) p.2

/-- Has a stray reported. -/
def reportStray (f : Forest) (rep : Reporter) (p : NodeId × NodeId) : Reporter :=
  rep.reportAt f p.2 .error (f.strayMessage p.1 p.2)

theorem audit_eq (f : Forest) (r : NodeId) (rep : Reporter) :
    f.audit r rep = ((f.strays r).isEmpty, (f.strays r).foldl f.reportStray rep) := rfl

/-- Reporting strays is recording their reports: the current file name is the same for all of them. -/
theorem foldl_reportStray (f : Forest) (strays : List (NodeId × NodeId)) (rep : Reporter) :
    strays.foldl f.reportStray rep = (strays.map (f.strayReport rep.filename)).foldl Reporter.record rep := by
  induction strays generalizing rep with
  | nil => rfl
  | cons p strays ih =>
    have hfirst : f.reportStray rep p = rep.record (f.strayReport rep.filename p) := rep.reportAt_eq f p.2 .error _
    rw [List.foldl_cons, ih, hfirst, Reporter.filename_record, List.map_cons, List.foldl_cons]

/-! ## The audit as one walk -/

/-- Looks at the children of a node one by one and reports a stray at once. -/
def check (i : NodeId) (f : Forest) (s : Bool × Reporter) : Step (Bool × Reporter) :=
  ⟨f, (f.children i).foldl (fun (sound, rep) child =>
    if f.parent? child = some i then (sound, rep)
    else (false, rep.reportAt f child .error (f.strayMessage i child))) s, true⟩

/-- One visit reports the strays of one node. -/
theorem check_state (f : Forest) (i : NodeId) (sound : Bool) (rep : Reporter) : (check i f (sound, rep)).state =
    (sound && (f.straysOf i).isEmpty, (f.straysOf i).foldl f.reportStray rep) := by
  simp only [check, straysOf]
  induction f.children i generalizing sound rep with
  | nil => simp
  | cons child rest ih => by_cases hp : f.parent? child = some i <;> simp [hp, ih, reportStray]

/-- **An audit is one walk**, which leaves every node as it was. -/
theorem walk_check (hf : f.WellOwned) (hr : r < f.size) (rep : Reporter) :
    f.walk r (true, rep) check = (f, f.audit r rep) := by
  have hv : ReadOnly check := ⟨fun _ _ _ => rfl, fun _ _ _ => rfl⟩
  have hrun : ∀ (nodes : List NodeId) (sound : Bool) (rep : Reporter),
      nodes.foldl (fun s i => (check i f s).state) (sound, rep) =
        (sound && (nodes.flatMap f.straysOf).isEmpty, (nodes.flatMap f.straysOf).foldl f.reportStray rep) := by
    intro nodes
    induction nodes with
    | nil => intro sound rep; simp
    | cons i nodes ih =>
      intro sound rep
      rw [List.foldl_cons, check_state, ih, List.flatMap_cons, List.foldl_append]
      cases f.straysOf i <;> simp
  rw [walk_of_readOnly hv hf hr, hrun, audit_eq, Bool.true_and, strays]

/-! ## The link of the root -/

/-- The link of the root is not looked at: the owner of a stray is in the tree, and the root is below none of it. -/
theorem strays_link_root (hf : f.WellOwned) (hr : r < f.size) (p : Option NodeId) :
    (f.link r p).strays r = f.strays r := by
  have hsame := link_sameChildren f r p
  have hpre : (f.link r p).preorder r = f.preorder r := (f.sameUpTo_link r p).alike r |>.preorder
  rw [strays, strays, hpre]
  refine List.flatMap_congr fun o ho => ?_
  rw [straysOf, straysOf, hsame.children_eq]
  congr 1
  refine List.filter_congr fun c hc => ?_
  have hne : r ≠ c := by
    rintro rfl
    exact hf.not_below_owner hc ((mem_preorder hf hr).1 ho)
  rw [parent?_link, if_neg hne]

end Forest

/-- **An audit reports exactly the violations**, and does nothing else. -/
theorem audit_reports_violations (f : Forest) (r : NodeId) (rep : Reporter) (hf : f.WellOwned) (hlinks : f.LinksEnd)
    (hr : r < f.size) :
    ((f.audit r rep).1 = true ↔ ∀ c, TransGen f.Owns r c → ∀ o, f.Owns o c → f.parent? c = some o) ∧
    (∃ (violations : List (NodeId × NodeId)) (reports : List Diagnostic),
      (∀ o c, (o, c) ∈ violations ↔ f.Below r o ∧ f.Owns o c ∧ f.parent? c ≠ some o) ∧
      violations.Pairwise (f.Earlier r) ∧
      List.Forall₂ (fun p d => f.StrayReport rep.filename p.1 p.2 d) violations reports ∧
      (f.audit r rep).2 = reports.foldl Reporter.record rep ∧ rep.Informed reports (f.audit r rep).2) ∧
    (∀ o, (o, r) ∉ f.strays r) ∧
    (∀ p, (f.link r p).strays r = f.strays r ∧ ((f.link r p).audit r rep).1 = (f.audit r rep).1) ∧
    f.walk r (true, rep) Forest.check = (f, f.audit r rep) := by
  have hmem : ∀ o c, (o, c) ∈ f.strays r ↔ f.Below r o ∧ f.Owns o c ∧ f.parent? c ≠ some o := fun o c =>
    Forest.mem_strays hf hr
  have hreporter : (f.audit r rep).2 = ((f.strays r).map (f.strayReport rep.filename)).foldl Reporter.record rep :=
    f.foldl_reportStray (f.strays r) rep
  refine ⟨?_, ⟨f.strays r, (f.strays r).map (f.strayReport rep.filename), hmem, Forest.strays_sorted hf hr, ?_,
    hreporter, ?_⟩, fun o ho => ?_, fun p => ?_, Forest.walk_check hf hr rep⟩
  · have hnil : (f.audit r rep).1 = true ↔ f.strays r = [] := List.isEmpty_iff
    rw [hnil, List.eq_nil_iff_forall_not_mem]
    constructor
    · intro hnone c hc o ho
      by_contra hp
      obtain ⟨o', hro, ho'⟩ := TransGen.tail'_iff.1 hc
      exact hnone (o, c) ((hmem o c).2 ⟨hf.unique ho' ho ▸ hro, ho, hp⟩)
    · rintro hall ⟨o, c⟩ hstray
      obtain ⟨hro, ho, hp⟩ := (hmem o c).1 hstray
      exact hp (hall c (TransGen.tail'_iff.2 ⟨o, hro, ho⟩) o ho)
  · rw [List.forall₂_map_right_iff, List.forall₂_same]
    rintro ⟨o, c⟩ hstray
    exact Forest.strayReport_reportOf hf hlinks ((hmem o c).1 hstray).2.1 rep.filename
  · rw [hreporter]
    refine rep.informed_foldl_record fun d hd => ?_
    obtain ⟨p, -, rfl⟩ := List.mem_map.1 hd
    exact Severity.noConfusion
  · obtain ⟨hro, hown, -⟩ := (hmem o r).1 ho
    exact hf.not_below_owner hown hro
  · have hstrays := Forest.strays_link_root hf hr p
    exact ⟨hstrays, by rw [Forest.audit, Forest.audit, hstrays]⟩

/-- A program linked to a library, whose block has a statement linked to nothing and one linked to the library. -/
def lentStatements : Forest :=
  ⟨#[{ form := .emptyStatement, span := { line := some 3 } },
    { form := .debuggerStatement, parent := some 4 },
    { form := .blockStatement, fields := [⟨.body, .many [some 0, some 1]⟩], parent := some 3 },
    { form := .program "main.js", fields := [⟨.body, .many [some 2]⟩], parent := some 4 },
    { form := .program "lib.js", fields := [⟨.body, .many []⟩] }]⟩

theorem lentStatements_wellOwned : lentStatements.WellOwned := Forest.wellOwned_of_older (by decide)

theorem lentStatements_linksEnd : lentStatements.LinksEnd := Forest.linksEnd_of_younger (by decide)

/-- The audit of the program adds a report in the current file and one in the library to what is on record, and none
about the program. -/
theorem audit_reports_violations_lentStatements :
    let old : Diagnostic := ⟨.warning, "old", "", 1, 1⟩
    let rep : Reporter := { records := #[old], filename := "now.js", listener := some .collect }
    lentStatements.WellOwned ∧ lentStatements.LinksEnd ∧ 3 < lentStatements.size ∧
      (lentStatements.audit 3 rep).1 = false ∧
      (∃ reports, (lentStatements.audit 3 rep).2.records.toList = old :: reports ∧ reports =
        [⟨.error, "NEmptyStatement is a child of NBlockStatement but its parent link points to null", "now.js", 3, 0⟩,
          ⟨.error, "NDebuggerStatement is a child of NBlockStatement but its parent link points to NProgram", "lib.js",
            0, 0⟩]) ∧
      lentStatements.walk 3 (true, rep) Forest.check = (lentStatements, lentStatements.audit 3 rep) := by
  intro old rep
  obtain ⟨hsound, ⟨violations, reports, -, -, -, -, hinformed⟩, -, -, hwalk⟩ :=
    audit_reports_violations lentStatements 3 rep lentStatements_wellOwned lentStatements_linksEnd (by decide)
  have hrecords : (lentStatements.audit 3 rep).2.records.toList = [old] ++ reports := hinformed.records (by decide)
  refine ⟨lentStatements_wellOwned, lentStatements_linksEnd, by decide, ?_, ⟨reports, hrecords, ?_⟩, hwalk⟩
  · -- the empty statement is below the program and linked to nothing
    refine Bool.eq_false_iff.2 fun htrue => ?_
    have hbelow : TransGen lentStatements.Owns 3 0 := .tail (.single (b := 2) (by decide)) (by decide)
    exact absurd (hsound.1 htrue 0 hbelow 2 (by decide)) (by decide)
  · have hcomputed : (lentStatements.audit 3 rep).2.records.toList = [old] ++
        [⟨.error, "NEmptyStatement is a child of NBlockStatement but its parent link points to null", "now.js", 3, 0⟩,
          ⟨.error, "NDebuggerStatement is a child of NBlockStatement but its parent link points to NProgram", "lib.js",
            0, 0⟩] := by decide +kernel
    exact List.append_cancel_left (hrecords.symm.trans hcomputed)

end ScriptTree
