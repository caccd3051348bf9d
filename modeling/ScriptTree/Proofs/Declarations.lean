import Mathlib
import ScriptTree.Forest.Drawing
import ScriptTree.Proofs.Ownership

/-!
# Declarations in a scope

The environment of a scope is an increasing list of names. Names compare by their UTF-8 bytes, and that is the same as
comparing them by code points: the first byte of a character tells how many follow, the more the greater the code point,
and the bytes together are the code point to the base 64.

* `continuation`, `exists_utf8EncodeChar_eq`: the bytes of a character, by digits to the base 64;
* `bytes_lt_iff`: the order of the bytes of names is the order of their code points;
* `Environment.Increasing`, `Environment.Increasing.insert`: a declaration keeps an environment in order;
* `Environment.Increasing.eq_of_contains`: an environment in order is determined by its names;
* `Forest.get?_introduceAll`: what a sequence of declarations does to a forest.

**`environment_of_declarations`**: after every sequence of declarations in a scope that starts empty, its environment
has the names of the sequence in increasing order of their bytes, each of them once, and nothing else of the scope has
changed. Each declaration answers whether its name has not occurred before it, and a name is declared exactly if it
occurs. Another sequence with the same names leaves the same forest, so that every drawing of it is the same.
-/

namespace ScriptTree

open String (utf8EncodeChar)

/-! ## The bytes of a character -/

/-- The last digits of a number to the base 64, as bytes that continue a character. -/
def continuation (v : Nat) : Nat → List UInt8
  | 0 => []
  | k + 1 => UInt8.ofNat (v / 64 ^ k % 64 + 128) :: continuation v k

/-- The least first byte of a character that `k` bytes continue. -/
def leadMark : Nat → Nat
  | 0 => 0
  | 1 => 192
  | 2 => 224
  | _ => 240

/-- The least code point of a character that `k` bytes continue. -/
def leastCode : Nat → Nat
  | 0 => 0
  | 1 => 128
  | 2 => 2048
  | 3 => 65536
  | _ => 1114112

theorem exists_utf8EncodeChar_eq (c : Char) : ∃ k ≤ 3, leastCode k ≤ c.toNat ∧ c.toNat < leastCode (k + 1) ∧
    utf8EncodeChar c = UInt8.ofNat (c.toNat / 64 ^ k + leadMark k) :: continuation c.toNat k := by
  have hlt : c.toNat < 1114112 := by
    rcases c.valid with h | h
    · exact h.trans (by decide)
    · exact h.2
  have hv : c.val.toNat = c.toNat := rfl
  simp only [utf8EncodeChar, hv]
  split_ifs with h₁ h₂ h₃
  · exact ⟨0, by decide, Nat.zero_le _, Nat.lt_succ_of_le h₁, by simp [leadMark, continuation]⟩
  · have hdigit : c.toNat / 64 % 32 = c.toNat / 64 := Nat.mod_eq_of_lt (by omega)
    exact ⟨1, by decide, by simp only [leastCode]; omega, Nat.lt_succ_of_le h₂,
      by simp [leadMark, continuation, hdigit]⟩
  · have hdigit : c.toNat / 4096 % 16 = c.toNat / 4096 := Nat.mod_eq_of_lt (by omega)
    exact ⟨2, by decide, by simp only [leastCode]; omega, Nat.lt_succ_of_le h₃,
      by simp [leadMark, continuation, hdigit]⟩
  · have hdigit : c.toNat / 262144 % 8 = c.toNat / 262144 := Nat.mod_eq_of_lt (by omega)
    exact ⟨3, by decide, by simp only [leastCode]; omega, hlt, by simp [leadMark, continuation, hdigit]⟩

theorem ofNat_lt_ofNat {a b : Nat} (hab : a < b) (hb : b < 256) : UInt8.ofNat a < UInt8.ofNat b := by
  rw [UInt8.lt_iff_toNat_lt, UInt8.toNat_ofNat', UInt8.toNat_ofNat', Nat.mod_eq_of_lt (hab.trans hb),
    Nat.mod_eq_of_lt hb]
  exact hab

/-- A greater quotient, or the same one and a greater remainder. -/
theorem div_lt_or_mod_lt {v w : Nat} (h : v < w) (m : Nat) : v / m < w / m ∨ v / m = w / m ∧ v % m < w % m := by
  rcases (Nat.div_le_div_right h.le : v / m ≤ w / m).lt_or_eq with hlt | heq
  · exact Or.inl hlt
  · refine Or.inr ⟨heq, ?_⟩
    have hv := Nat.div_add_mod v m
    have hw := Nat.div_add_mod w m
    rw [heq] at hv
    omega

/-- Continuation bytes are in the order of the numbers, whatever follows them. -/
theorem continuation_lt {v w k : Nat} (r r' : List UInt8) (h : v % 64 ^ k < w % 64 ^ k) :
    continuation v k ++ r < continuation w k ++ r' := by
  induction k with
  | zero => simp [Nat.mod_one] at h
  | succ k ih =>
    have hdigit : ∀ u, u % 64 ^ (k + 1) / 64 ^ k = u / 64 ^ k % 64 := fun u => by
      rw [Nat.pow_succ, Nat.mod_mul_right_div_self]
    have hrest : ∀ u, u % 64 ^ (k + 1) % 64 ^ k = u % 64 ^ k := fun u =>
      Nat.mod_mod_of_dvd u (Nat.pow_dvd_pow 64 (Nat.le_succ k))
    have hw : w / 64 ^ k % 64 < 64 := Nat.mod_lt _ (by decide)
    simp only [continuation, List.cons_append, List.cons_lt_cons_iff]
    rcases div_lt_or_mod_lt h (64 ^ k) with hlt | ⟨heq, hlt⟩
    · rw [hdigit, hdigit] at hlt
      exact Or.inl (ofNat_lt_ofNat (by omega) (by omega))
    · rw [hdigit, hdigit] at heq
      rw [hrest, hrest] at hlt
      exact Or.inr ⟨by rw [heq], ih hlt⟩

/-- **The bytes of a greater character are greater**, whatever follows in the one text and in the other. -/
theorem utf8EncodeChar_append_lt {c d : Char} (h : c < d) (r r' : List UInt8) :
    utf8EncodeChar c ++ r < utf8EncodeChar d ++ r' := by
  have hlt : c.toNat < d.toNat := UInt32.lt_iff_toNat_lt.1 h
  obtain ⟨k, hk, hck, hck', hc⟩ := exists_utf8EncodeChar_eq c
  obtain ⟨m, hm, hdm, hdm', hd⟩ := exists_utf8EncodeChar_eq d
  have hlead : d.toNat / 64 ^ m + leadMark m < 256 := by
    interval_cases m <;> simp only [leastCode, leadMark] at hdm' ⊢ <;> omega
  rw [hc, hd, List.cons_append, List.cons_append, List.cons_lt_cons_iff]
  rcases Nat.lt_trichotomy k m with hkm | rfl | hmk
  · -- more bytes follow, so the first one is greater
    refine Or.inl (ofNat_lt_ofNat ?_ hlead)
    interval_cases m <;> interval_cases k <;> simp only [leastCode, leadMark] at hck' hdm ⊢ <;> omega
  · rcases div_lt_or_mod_lt hlt (64 ^ k) with hdiv | ⟨hdiv, hmod⟩
    · exact Or.inl (ofNat_lt_ofNat (by omega) hlead)
    · exact Or.inr ⟨by rw [hdiv], continuation_lt r r' hmod⟩
  · -- fewer bytes follow a smaller character
    exfalso
    interval_cases k <;> interval_cases m <;> simp only [leastCode] at hck hdm' <;> omega

/-! ## The bytes of a name -/

/-- The UTF-8 bytes of a text. -/
def bytes (s : String) : List UInt8 := s.toUTF8.data.toList

theorem bytes_eq (s : String) : bytes s = s.toList.flatMap utf8EncodeChar := by
  rw [bytes, String.toUTF8_eq_toByteArray, ← String.utf8Encode_toList, List.utf8Encode, List.toList_data_toByteArray]

theorem flatMap_utf8EncodeChar_lt {cs ds : List Char} (h : cs < ds) :
    cs.flatMap utf8EncodeChar < ds.flatMap utf8EncodeChar := by
  induction h with
  | @nil d ds =>
    obtain ⟨k, -, -, -, hd⟩ := exists_utf8EncodeChar_eq d
    rw [List.flatMap_nil, List.flatMap_cons, hd]
    exact List.nil_lt_cons _ _
  | rel hcd => exact utf8EncodeChar_append_lt hcd _ _
  | cons _ ih => exact List.append_left_lt ih

/-- **Names are in the order of their bytes as they are in the order of their code points.** -/
theorem bytes_lt_iff {s t : String} : bytes s < bytes t ↔ s.toList < t.toList := by
  have hmono : ∀ {s t : String}, s.toList < t.toList → bytes s < bytes t := by
    intro s t h
    rw [bytes_eq, bytes_eq]
    exact flatMap_utf8EncodeChar_lt h
  refine ⟨fun h => ?_, hmono⟩
  rcases lt_trichotomy s t with hst | rfl | hts
  · exact String.lt_iff_toList_lt.1 hst
  · exact absurd h (List.lt_irrefl _)
  · exact absurd h (List.lt_asymm (hmono (String.lt_iff_toList_lt.1 hts)))

/-! ## Environments in order -/

namespace Environment

variable {e e' : Environment} {s x : String} {ss : List String}

/-- The names are in increasing order, each of them once. -/
def Increasing (e : Environment) : Prop := e.names.Pairwise (· < ·)

theorem contains_iff : e.contains x = true ↔ x ∈ e.names := List.contains_iff_mem

theorem increasing_empty : ({} : Environment).Increasing := List.Pairwise.nil

theorem pairwise_insertSorted {l : List String} (h : l.Pairwise (· < ·)) : (insertSorted s l).Pairwise (· < ·) := by
  induction l with
  | nil => exact List.pairwise_singleton _ s
  | cons t ts ih =>
    obtain ⟨ht, hts⟩ := List.pairwise_cons.1 h
    simp only [insertSorted]
    split_ifs with hlt heq
    · refine List.pairwise_cons.2 ⟨fun x hx => ?_, h⟩
      rcases List.mem_cons.1 hx with rfl | hx
      · exact hlt
      · exact hlt.trans (ht x hx)
    · exact h
    · refine List.pairwise_cons.2 ⟨fun x hx => ?_, ih hts⟩
      rcases mem_insertSorted.1 hx with rfl | hx
      · exact lt_of_le_of_ne (not_lt.1 hlt) (Ne.symm heq)
      · exact ht x hx

theorem Increasing.insert (h : e.Increasing) (s : String) : (e.insert s).Increasing := pairwise_insertSorted h

/-- An environment in order is determined by its names. -/
theorem Increasing.eq_of_contains (h : e.Increasing) (h' : e'.Increasing) (hx : ∀ x, e.contains x = e'.contains x) :
    e = e' := by
  have hnames : e.names = e'.names := List.Pairwise.eq_of_mem_iff h h' fun x => by
    rw [← contains_iff, ← contains_iff, hx]
  obtain ⟨names⟩ := e
  exact congrArg mk hnames

theorem increasing_foldl_insert (h : e.Increasing) : (ss.foldl Environment.insert e).Increasing := by
  induction ss generalizing e with
  | nil => exact h
  | cons s ss ih => exact ih (h.insert s)

theorem contains_foldl_insert : (ss.foldl Environment.insert e).contains x = (ss.contains x || e.contains x) := by
  induction ss generalizing e with
  | nil => simp
  | cons s ss ih =>
    rw [List.foldl_cons, ih, contains_insert, List.contains_cons, ← Bool.or_assoc, Bool.or_comm (_ == _)]

theorem ofList_increasing (ss : List String) : (ofList ss).Increasing := increasing_foldl_insert increasing_empty

theorem mem_ofList : x ∈ (ofList ss).names ↔ x ∈ ss := by
  rw [← contains_iff, ofList, contains_foldl_insert]
  simp [contains]

/-- The environment of a list of declarations depends on which names are in the list only. -/
theorem ofList_congr {ss' : List String} (h : ∀ x, x ∈ ss ↔ x ∈ ss') : ofList ss = ofList ss' := by
  refine (ofList_increasing ss).eq_of_contains (ofList_increasing ss') fun x => ?_
  rw [Bool.eq_iff_iff, contains_iff, contains_iff, mem_ofList, mem_ofList, h]

end Environment

/-! ## Sequences of declarations -/

namespace Forest

variable {f : Forest} {i : NodeId} {n : Node} {ss : List String}

/-- Declares names in a scope one after the other, and lists the answers. -/
def introduceAll (f : Forest) (i : NodeId) : List String → List Bool × Forest
  | [] => ([], f)
  | s :: ss =>
    let (added, g) := f.introduce i s
    let (answers, h) := g.introduceAll i ss
    (added :: answers, h)

/-- **A sequence of declarations** changes the environment of the scope and nothing else. -/
theorem get?_introduceAll (f : Forest) (i j : NodeId) (ss : List String) : (f.introduceAll i ss).2.get? j =
    if i = j then (f.get? j).map fun n => { n with env := ss.foldl Environment.insert n.env } else f.get? j := by
  induction ss generalizing f with
  | nil => simp [introduceAll]
  | cons s ss ih =>
    have hfirst : (f.introduce i s).2.get? j =
        if i = j then (f.get? j).map fun n => { n with env := n.env.insert s } else f.get? j := get?_modify f i j _
    have hrest : (f.introduceAll i (s :: ss)).2.get? j = ((f.introduce i s).2.introduceAll i ss).2.get? j := rfl
    rw [hrest, ih, hfirst]
    split
    · rw [Option.map_map]
      rfl
    · rfl

theorem introduceAll_eq (hn : f.get? i = some n) (hempty : n.env = {}) (ss : List String) :
    (f.introduceAll i ss).2.get? i = some { n with env := .ofList ss } := by
  rw [get?_introduceAll, if_pos rfl, hn, Option.map_some, hempty]
  rfl

theorem declares_introduceAll (hn : f.get? i = some n) (hempty : n.env = {}) (x : String) :
    (f.introduceAll i ss).2.declares i x = true ↔ x ∈ ss := by
  rw [declares, introduceAll_eq hn hempty, Option.map_some, Option.getD_some, Environment.contains_iff,
    Environment.mem_ofList]

/-- Each answer is about the scope as the declarations before it have left it. -/
theorem answers_introduceAll {k : Nat} {x : String} (f : Forest) (hx : ss[k]? = some x) :
    (f.introduceAll i ss).1[k]? = some (!(f.introduceAll i (ss.take k)).2.declares i x) := by
  induction ss generalizing f k with
  | nil => cases hx
  | cons s ss ih =>
    cases k with
    | zero =>
      cases hx
      rfl
    | succ k => exact ih (f.introduce i s).2 hx

end Forest

/-- **The environment of a scope is the sorted set of the names declared.** -/
theorem environment_of_declarations (f : Forest) (i : NodeId) (n : Node) (hn : f.get? i = some n)
    (hempty : n.env = {}) :
    (∀ s t : String, bytes s < bytes t ↔ s.toList < t.toList) ∧
    ∀ names : List String,
      (∃ env : Environment, (f.introduceAll i names).2.get? i = some { n with env := env } ∧
        env.names.Pairwise (fun s t => bytes s < bytes t) ∧ ∀ x, x ∈ env.names ↔ x ∈ names) ∧
      (∀ k x, names[k]? = some x → ∃ added, (f.introduceAll i names).1[k]? = some added ∧
        (added = true ↔ x ∉ names.take k)) ∧
      (∀ x, (f.introduceAll i names).2.declares i x = true ↔ x ∈ names) ∧
      ∀ names' : List String, (∀ x, x ∈ names ↔ x ∈ names') →
        (f.introduceAll i names).2 = (f.introduceAll i names').2 ∧
          ∀ o root, (f.introduceAll i names).2.draw o root = (f.introduceAll i names').2.draw o root := by
  refine ⟨fun s t => bytes_lt_iff, fun names => ⟨⟨.ofList names, Forest.introduceAll_eq hn hempty names, ?_, ?_⟩,
    fun k x hx => ⟨_, Forest.answers_introduceAll f hx, ?_⟩, Forest.declares_introduceAll hn hempty,
    fun names' hnames => ?_⟩⟩
  · refine (Environment.ofList_increasing names).imp fun {s t} hst => ?_
    exact bytes_lt_iff.2 (String.lt_iff_toList_lt.1 hst)
  · exact fun x => Environment.mem_ofList
  · rw [Bool.not_eq_true', ← Bool.not_eq_true, Forest.declares_introduceAll hn hempty]
  · have hsame : (f.introduceAll i names).2 = (f.introduceAll i names').2 := by
      refine Forest.eq_of_get? fun j => ?_
      by_cases hj : i = j
      · subst hj
        rw [Forest.introduceAll_eq hn hempty, Forest.introduceAll_eq hn hempty, Environment.ofList_congr hnames]
      · rw [Forest.get?_introduceAll, Forest.get?_introduceAll, if_neg hj, if_neg hj]
    exact ⟨hsame, fun o root => by rw [hsame]⟩

/-- A program without statements. -/
def emptyProgram : Forest := ⟨#[{ form := .program "" }]⟩

/-- Names of one, three and four bytes are declared in an empty program, and one of them twice. They are drawn in the
order of their code points, as they are when they come in another order. -/
theorem environment_of_declarations_emptyProgram :
    emptyProgram.get? 0 = some { form := .program "" } ∧
    (∃ added, (emptyProgram.introduceAll 0 ["😀", "\uffff", "z", "z"]).1[3]? = some added ∧
      (added = true ↔ "z" ∉ ["😀", "\uffff", "z"])) ∧
    (emptyProgram.introduceAll 0 ["😀", "\uffff", "z", "z"]).2.declares 0 "\uffff" = true ∧
    bytes "\uffff" < bytes "😀" ∧
    (emptyProgram.introduceAll 0 ["😀", "\uffff", "z", "z"]).2.draw { scopes := true } 0 = "NProgram [z, \uffff, 😀]\n" ∧
    (emptyProgram.introduceAll 0 ["z", "\uffff", "😀"]).2.draw { scopes := true } 0 = "NProgram [z, \uffff, 😀]\n" := by
  obtain ⟨horder, hrun⟩ := environment_of_declarations emptyProgram 0 { form := .program "" } rfl rfl
  obtain ⟨-, hanswers, hdeclares, hsame⟩ := hrun ["😀", "\uffff", "z", "z"]
  have hdraw : (emptyProgram.introduceAll 0 ["😀", "\uffff", "z", "z"]).2.draw { scopes := true } 0 =
      "NProgram [z, \uffff, 😀]\n" := by decide +kernel
  have hnames : ∀ x, x ∈ ["😀", "\uffff", "z", "z"] ↔ x ∈ ["z", "\uffff", "😀"] := by
    intro x
    simp only [List.mem_cons, List.not_mem_nil, or_false]
    tauto
  refine ⟨rfl, hanswers 3 "z" rfl, (hdeclares "\uffff").2 (by decide), (horder _ _).2 (by decide), hdraw, ?_⟩
  exact ((hsame _ hnames).2 { scopes := true } 0).symm.trans hdraw

end ScriptTree
