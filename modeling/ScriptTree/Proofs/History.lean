import Mathlib
import ScriptTree.Forest.Links
import ScriptTree.Proofs.Ancestry

/-!
# The history of a reporter

A reporter without a listener works beside trees that change: it reports at lines and at nodes, audits trees, is given
file names and is cleared (`Deed`, `Desk.perform`). What it has made of all that is compared with the list of deeds:

* `lastFilename`, `treesAfter`: the file name and the trees that a deed finds, from the deeds before it;
* `Deed.reports`: the reports that a deed makes on finding them, and `reportsAfter` those of a list of deeds;
* `UpToNull`: a text cut at its first null character, which is one text (`UpToNull.unique`);
* `reporterAfter_records`, `reporterAfter_printed`: the records are the reports since the last clearing, and what was
  printed is all reports ever made.

**`reporter_keeps_history`**: after any deeds, done in any order with any changes of the trees between them, the records
are the reports made since the last clearing, in order, each with the file name and the line that it found when it was
made. No later deed but a clearing takes one back or alters it, and there is an error or a warning exactly if one of
these reports is one. Each report ever made was printed as a line, in order: the word for its severity, its file, its
message and its place, as far as they are known, up to the first null character.
-/

namespace ScriptTree

/-- What is done with a reporter, and beside it. -/
inductive Deed where
  | report (severity : Severity) (message : String) (line column : Int)
  | reportAt (severity : Severity) (message : String) (i : NodeId)
  | audit (root : NodeId)
  | setFilename (filename : String)
  | clear
  /-- Any change of the trees. -/
  | alter (change : Forest → Forest)

/-- The trees and the reporter. -/
structure Desk where
  forest : Forest := {}
  reporter : Reporter := {}

namespace Desk

/-- Does one thing. -/
def perform (d : Desk) : Deed → Desk
  | .report severity message line column =>
    { d with reporter := d.reporter.report severity message line column }
  | .reportAt severity message i => { d with reporter := d.reporter.reportAt d.forest i severity message }
  | .audit root => { d with reporter := (d.forest.audit root d.reporter).2 }
  | .setFilename filename => { d with reporter := { d.reporter with filename := filename } }
  | .clear => { d with reporter := d.reporter.clear }
  | .alter change => { d with forest := change d.forest }

/-- Does one thing after the other. -/
def performAll (d : Desk) (deeds : List Deed) : Desk := deeds.foldl perform d

end Desk

/-- A new reporter after some deeds that start from given trees. -/
def reporterAfter (f : Forest) (deeds : List Deed) : Reporter := (({ forest := f } : Desk).performAll deeds).reporter

/-! ## What the deeds say -/

/-- The file name that was set last. -/
def lastFilename (past : List Deed) : String :=
  ((past.filterMap fun
    | .setFilename filename => some filename
    | _ => none).getLast?).getD ""

/-- The trees after all changes. -/
def treesAfter (f : Forest) (past : List Deed) : Forest :=
  past.foldl (fun f deed =>
    match deed with
    | .alter change => change f
    | _ => f) f

/-- A report at a node: in the file of its program, whatever its name, and only without a program in the current one. -/
def reportOf (trees : Forest) (current : String) (severity : Severity) (message : String) (i : NodeId) : Diagnostic :=
  { severity, message, column := 0, line := (trees.line? i).getD 0
    filename := match trees.program? i with
      | some p => (trees.programName? p).getD ""
      | none => current }

/-- The reports that a deed makes on finding some trees and a current file name. -/
def Deed.reports (trees : Forest) (current : String) : Deed → List Diagnostic
  | .report severity message line column => [{ severity, message, filename := current, line, column }]
  | .reportAt severity message i => [reportOf trees current severity message i]
  | .audit root => (trees.strays root).map fun (owner, child) =>
      reportOf trees current .error (trees.strayMessage owner child) child
  | .setFilename _ | .clear | .alter _ => []

/-- The reports of some deeds, done after others, in order. -/
def reportsAfter (f : Forest) : List Deed → List Deed → List Diagnostic
  | _, [] => []
  | past, deed :: deeds =>
    deed.reports (treesAfter f past) (lastFilename past) ++ reportsAfter f (past ++ [deed]) deeds

/-- Deeds up to the last clearing, and those since. -/
structure LastCleared (deeds before after : List Deed) : Prop where
  split : deeds = before ++ after
  cleared : before = [] ∨ ∃ earlier, before = earlier ++ [.clear]
  since : ∀ deed ∈ after, deed ≠ .clear

/-- A text up to its first null character. -/
def UpToNull (s t : String) : Prop := '\x00' ∉ t.toList ∧ (s = t ∨ ∃ rest, s = t ++ "\x00" ++ rest)

theorem Diagnostic.exists_upToNull (d : Diagnostic) : ∃ t, UpToNull d.text t ∧ d.printed = t ++ "\n" := by
  refine ⟨_, ⟨fun h => ?_, ?_⟩, rfl⟩
  · rw [String.toList_ofList] at h
    simpa using List.mem_takeWhile_imp h
  · have hsplit := List.takeWhile_append_dropWhile (p := (· ≠ '\x00')) (l := d.text.toList)
    cases hdrop : d.text.toList.dropWhile (· ≠ '\x00') with
    | nil =>
      refine Or.inl (String.toList_inj.1 ?_)
      rw [hdrop, List.append_nil] at hsplit
      rw [String.toList_ofList, hsplit]
    | cons c rest =>
      have hc : c = '\x00' := by
        have hhead := List.head?_dropWhile_not (fun c : Char => decide (c ≠ '\x00')) d.text.toList
        rw [hdrop] at hhead
        simpa using hhead
      refine Or.inr ⟨String.ofList rest, String.toList_inj.1 ?_⟩
      rw [hdrop, hc] at hsplit
      simpa using hsplit.symm

theorem UpToNull.toList_eq {s t : String} (h : UpToNull s t) : t.toList = s.toList.takeWhile (· ≠ '\x00') := by
  obtain ⟨hnull, hs⟩ := h
  have hkept : ∀ c ∈ t.toList, decide (c ≠ '\x00') = true := fun c hc => decide_eq_true fun he => hnull (he ▸ hc)
  rcases hs with rfl | ⟨rest, rfl⟩
  · rw [List.takeWhile_eq_self_iff.2 hkept]
  · rw [String.append_assoc, String.toList_append, List.takeWhile_append_of_pos hkept, String.toList_append]
    simp

/-- A text has one part up to its first null character. -/
theorem UpToNull.unique {s t t' : String} (h : UpToNull s t) (h' : UpToNull s t') : t = t' :=
  String.toList_inj.1 (h.toList_eq.trans h'.toList_eq.symm)

theorem lastFilename_append (past : List Deed) (deed : Deed) : lastFilename (past ++ [deed]) =
    match deed with
    | .setFilename filename => filename
    | _ => lastFilename past := by
  unfold lastFilename
  rw [List.filterMap_append]
  cases deed <;> simp

theorem treesAfter_append (f : Forest) (past : List Deed) (deed : Deed) : treesAfter f (past ++ [deed]) =
    match deed with
    | .alter change => change (treesAfter f past)
    | _ => treesAfter f past := List.foldl_append

theorem reportsAfter_append (f : Forest) : ∀ past deeds deeds' : List Deed, reportsAfter f past (deeds ++ deeds') =
    reportsAfter f past deeds ++ reportsAfter f (past ++ deeds) deeds'
  | past, [], deeds' => by simp [reportsAfter]
  | past, deed :: deeds, deeds' => by simp [reportsAfter, reportsAfter_append f (past ++ [deed]) deeds deeds']

/-! ## One deed -/

namespace Reporter

variable {r : Reporter}

/-- Without a listener a report is recorded and printed. -/
theorem record_eq (h : r.listener = none) (d : Diagnostic) :
    r.record d = { r with records := r.records.push d, printed := r.printed.push d.printed } := by
  simp [record, enter, respond, print, h]

/-- Reports one after the other. -/
theorem foldl_record (h : r.listener = none) (ds : List Diagnostic) : ds.foldl record r =
    { r with records := r.records ++ ds.toArray, printed := r.printed ++ (ds.map Diagnostic.printed).toArray } := by
  induction ds generalizing r with
  | nil => simp
  | cons d ds ih =>
    rw [List.foldl_cons, record_eq h]
    refine (ih (by exact h)).trans ?_
    simp

/-- A report at a node is made in the file of its program, if it has one. -/
theorem reportAt_eq (r : Reporter) (f : Forest) (i : NodeId) (severity : Severity) (message : String) :
    r.reportAt f i severity message = r.record (reportOf f r.filename severity message i) := by
  have hfile : (f.filename? i).getD r.filename = match f.program? i with
      | some p => (f.programName? p).getD ""
      | none => r.filename := by
    cases hp : f.program? i with
    | none => simp [Forest.filename?_eq_none_iff.2 hp]
    | some p =>
      have hsome : f.filename? i ≠ none := fun hnone => by simp [Forest.filename?_eq_none_iff.1 hnone] at hp
      obtain ⟨file, hfile⟩ := Option.ne_none_iff_exists'.1 hsome
      have hname : f.programName? p = some file := by simpa [Forest.filename?, hp] using hfile
      simp [hfile, hname]
  rw [reportAt, reportOf, hfile]

/-- An audit makes its reports one after the other. -/
theorem audit_eq (h : r.listener = none) (f : Forest) (root : NodeId) :
    (f.audit root r).2 = ((Deed.audit root).reports f r.filename).foldl record r := by
  simp only [Forest.audit, Deed.reports, reportAt_eq]
  generalize f.strays root = strays
  induction strays generalizing r with
  | nil => rfl
  | cons stray strays ih =>
    rw [List.foldl_cons, List.map_cons, List.foldl_cons, record_eq h]
    exact ih (by exact h)

end Reporter

/-- What a deed sets when its reports are made. -/
def Deed.settle (r : Reporter) : Deed → Reporter
  | .setFilename filename => { r with filename := filename }
  | .clear => r.clear
  | .report _ _ _ _ | .reportAt _ _ _ | .audit _ | .alter _ => r

namespace Desk

variable {d : Desk} {f : Forest} {past deeds before after : List Deed} {deed : Deed}

/-- **A deed makes its reports and then sets what it sets.** -/
theorem perform_reporter (h : d.reporter.listener = none) (deed : Deed) : (d.perform deed).reporter =
    deed.settle ((deed.reports d.forest d.reporter.filename).foldl Reporter.record d.reporter) := by
  cases deed with
  | report severity message line column => rfl
  | reportAt severity message i => exact d.reporter.reportAt_eq d.forest i severity message
  | audit root => exact Reporter.audit_eq h d.forest root
  | setFilename filename => rfl
  | clear => rfl
  | alter change => rfl

/-- The desk finds and has printed what the deeds say. -/
structure Follows (f : Forest) (past : List Deed) (d : Desk) : Prop where
  forest : d.forest = treesAfter f past
  unheard : d.reporter.listener = none
  filename : d.reporter.filename = lastFilename past
  printed : d.reporter.printed.toList = (reportsAfter f [] past).map Diagnostic.printed

theorem Follows.start (f : Forest) : ({ forest := f } : Desk).Follows f [] := ⟨rfl, rfl, rfl, rfl⟩

/-- **One deed more.** Its reports are those on finding what the deeds before it left. -/
theorem Follows.perform (h : d.Follows f past) (deed : Deed) :
    (d.perform deed).Follows f (past ++ [deed]) ∧
    (deed ≠ .clear → (d.perform deed).reporter.records.toList =
      d.reporter.records.toList ++ deed.reports (treesAfter f past) (lastFilename past)) := by
  have hreporter := perform_reporter h.unheard deed
  rw [Reporter.foldl_record h.unheard, h.forest, h.filename] at hreporter
  have hforest : (d.perform deed).forest = treesAfter f (past ++ [deed]) := by
    rw [treesAfter_append, ← h.forest]
    cases deed <;> rfl
  have hprinted : (d.perform deed).reporter.printed.toList =
      (reportsAfter f [] (past ++ [deed])).map Diagnostic.printed := by
    rw [reportsAfter_append, List.map_append, ← h.printed, hreporter]
    cases deed <;> simp [Deed.settle, Reporter.clear, reportsAfter]
  refine ⟨⟨hforest, ?_, ?_, hprinted⟩, fun hclear => ?_⟩
  · rw [hreporter]
    cases deed <;> exact h.unheard
  · rw [hreporter, lastFilename_append]
    cases deed <;> rfl
  · rw [hreporter]
    cases deed with
    | clear => exact absurd rfl hclear
    | _ => simp [Deed.settle]

/-! ## All deeds -/

theorem performAll_append (d : Desk) (deeds deeds' : List Deed) :
    d.performAll (deeds ++ deeds') = (d.performAll deeds).performAll deeds' := List.foldl_append

/-- **The run follows the deeds**, and until a clearing every report is recorded. -/
theorem Follows.performAll (h : d.Follows f past) : ∀ deeds : List Deed,
    (d.performAll deeds).Follows f (past ++ deeds) ∧
    ((∀ deed ∈ deeds, deed ≠ .clear) → (d.performAll deeds).reporter.records.toList =
      d.reporter.records.toList ++ reportsAfter f past deeds) := by
  intro deeds
  induction deeds generalizing d past with
  | nil => exact ⟨by rwa [List.append_nil], fun _ => by simp [Desk.performAll, reportsAfter]⟩
  | cons deed deeds ih =>
    obtain ⟨hnext, hrecords⟩ := h.perform deed
    obtain ⟨hall, hrest⟩ := ih hnext
    rw [List.append_assoc] at hall
    refine ⟨hall, fun hclear => ?_⟩
    refine (hrest fun x hx => hclear x (List.mem_cons_of_mem _ hx)).trans ?_
    rw [hrecords (hclear deed List.mem_cons_self), List.append_assoc]
    rfl

end Desk

variable {f : Forest} {deeds before after : List Deed}

/-- Deeds without a clearing add their reports to the records. -/
theorem reporterAfter_append (f : Forest) (before : List Deed) (h : ∀ deed ∈ after, deed ≠ .clear) :
    (reporterAfter f (before ++ after)).records.toList =
      (reporterAfter f before).records.toList ++ reportsAfter f before after := by
  have hbefore := ((Desk.Follows.start f).performAll before).1
  rw [reporterAfter, Desk.performAll_append]
  exact (hbefore.performAll after).2 h

/-- **The records are the reports since the last clearing.** -/
theorem reporterAfter_records (f : Forest) (h : LastCleared deeds before after) :
    (reporterAfter f deeds).records.toList = reportsAfter f before after := by
  have hbefore : (reporterAfter f before).records = #[] := by
    rcases h.cleared with rfl | ⟨earlier, rfl⟩
    · rfl
    · rw [reporterAfter, Desk.performAll_append]
      rfl
  rw [h.split, reporterAfter_append f before h.since, hbefore]
  rfl

/-- **What was printed is all reports ever made.** -/
theorem reporterAfter_printed (f : Forest) (deeds : List Deed) :
    (reporterAfter f deeds).printed.toList = (reportsAfter f [] deeds).map Diagnostic.printed :=
  ((Desk.Follows.start f).performAll deeds).1.printed

theorem exists_lastCleared (deeds : List Deed) : ∃ before after, LastCleared deeds before after := by
  induction deeds using List.reverseRecOn with
  | nil => exact ⟨[], [], rfl, Or.inl rfl, by simp⟩
  | append_singleton deeds deed ih =>
    by_cases hclear : deed = .clear
    · exact ⟨deeds ++ [deed], [], by simp, Or.inr ⟨deeds, by rw [hclear]⟩, by simp⟩
    · obtain ⟨before, after, h⟩ := ih
      refine ⟨before, after ++ [deed], by simp [h.split], h.cleared, fun x hx => ?_⟩
      rcases List.mem_append.1 hx with hx | hx
      · exact h.since x hx
      · rwa [List.mem_singleton.1 hx]

/-- **A reporter keeps its history**: the reports since the last clearing are on record, and all were printed. -/
theorem reporter_keeps_history (f : Forest) (deeds : List Deed) :
    let word : Severity → String := fun
      | .warning => "warning"
      | .error => "error"
      | .fatal => "fatal error"
    let file : Diagnostic → String := fun d => if d.filename = "" then "" else d.filename ++ ": "
    let column : Diagnostic → String := fun d => if 0 < d.column then ", column " ++ toString d.column else ""
    let place : Diagnostic → String := fun d => if 0 < d.line then " at line " ++ toString d.line ++ column d else ""
    (∃ before after, LastCleared deeds before after) ∧
    (∀ before after, LastCleared deeds before after →
      (reporterAfter f deeds).records.toList = reportsAfter f before after ∧
      ((reporterAfter f deeds).anyError = true ↔
        ∃ d ∈ reportsAfter f before after, d.severity = .error ∨ d.severity = .fatal) ∧
      ((reporterAfter f deeds).anyWarning = true ↔ ∃ d ∈ reportsAfter f before after, d.severity = .warning)) ∧
    (∀ later, (∀ deed ∈ later, deed ≠ .clear) →
      (reporterAfter f deeds).records.toList <+: (reporterAfter f (deeds ++ later)).records.toList) ∧
    List.Forall₂ (fun d line => ∃ t, UpToNull (word d.severity ++ ": " ++ file d ++ d.message ++ place d) t ∧
      line = t ++ "\n") (reportsAfter f [] deeds) (reporterAfter f deeds).printed.toList := by
  intro word file column place
  refine ⟨exists_lastCleared deeds, fun before after h => ?_, fun later hlater => ?_, ?_⟩
  · have hrecords := reporterAfter_records f h
    have hany : ∀ p : Diagnostic → Bool, (reporterAfter f deeds).records.any p = true ↔
        ∃ d ∈ reportsAfter f before after, p d = true := fun p => by
      rw [← Array.any_toList, hrecords, List.any_eq_true]
    refine ⟨hrecords, (hany _).trans ?_, (hany _).trans ?_⟩
    · refine exists_congr fun d => and_congr_right fun _ => ?_
      cases d.severity <;> simp [Severity.isError]
    · simp only [beq_iff_eq]
  · rw [reporterAfter_append f deeds hlater]
    exact List.prefix_append _ _
  · rw [reporterAfter_printed, List.forall₂_map_right_iff, List.forall₂_same]
    intro d _
    have htext : d.text = word d.severity ++ ": " ++ file d ++ d.message ++ place d := by
      have hword : d.severity.text = word d.severity := by cases d.severity <;> rfl
      rw [Diagnostic.text, Diagnostic.place, hword, Numeral.ofInt_eq_toString, Numeral.ofInt_eq_toString]
    exact htext ▸ d.exists_upToNull

/-- A program. -/
def oneProgram : Forest := ⟨#[{ form := .program "a.js", fields := [⟨.body, .many []⟩], span := { line := some 9 } }]⟩

/-- A warning that is cleared, an error in the current file, and two reports at a program, whose file name is made empty
between them. -/
theorem reporter_keeps_history_oneProgram :
    let before : List Deed := [.setFilename "b.js", .report .warning "w" 3 1, .clear]
    let after : List Deed := [.report .error "e" 2 0, .reportAt .warning "x" 0, .alter (·.set 0 (.filename "")),
      .setFilename "c.js", .reportAt .fatal "y\x00z" 0]
    let r := reporterAfter oneProgram (before ++ after)
    LastCleared (before ++ after) before after ∧
      r.records.toList = [⟨.error, "e", "b.js", 2, 0⟩, ⟨.warning, "x", "a.js", 9, 0⟩, ⟨.fatal, "y\x00z", "", 9, 0⟩] ∧
      r.anyError = true ∧ r.anyWarning = true ∧
      r.printed.toList = ["warning: b.js: w at line 3, column 1\n", "error: b.js: e at line 2\n",
        "warning: a.js: x at line 9\n", "fatal error: y\n"] := by
  intro before after r
  have hlast : LastCleared (before ++ after) before after :=
    ⟨rfl, Or.inr ⟨[.setFilename "b.js", .report .warning "w" 3 1], rfl⟩, by simp [after]⟩
  obtain ⟨-, hsince, -, hprinted⟩ := reporter_keeps_history oneProgram (before ++ after)
  obtain ⟨hrecords, herror, hwarning⟩ := hsince before after hlast
  have hreports : reportsAfter oneProgram before after =
      [⟨.error, "e", "b.js", 2, 0⟩, ⟨.warning, "x", "a.js", 9, 0⟩, ⟨.fatal, "y\x00z", "", 9, 0⟩] := rfl
  rw [hreports] at hrecords herror hwarning
  refine ⟨hlast, hrecords, herror.2 (by simp), hwarning.2 (by simp), ?_⟩
  -- the four lines are cut from the texts of the reports as the printed ones are
  refine List.right_unique_forall₂' ?_ hprinted
    (.cons ⟨"warning: b.js: w at line 3, column 1", ⟨by decide, .inl (by decide)⟩, rfl⟩
      (.cons ⟨"error: b.js: e at line 2", ⟨by decide, .inl (by decide)⟩, rfl⟩
        (.cons ⟨"warning: a.js: x at line 9", ⟨by decide, .inl (by decide)⟩, rfl⟩
          (.cons ⟨"fatal error: y", ⟨by decide, .inr ⟨"z at line 9", by decide⟩⟩, rfl⟩ .nil))))
  rintro d _ _ ⟨t, ht, rfl⟩ ⟨t', ht', rfl⟩
  rw [ht.unique ht']

end ScriptTree
