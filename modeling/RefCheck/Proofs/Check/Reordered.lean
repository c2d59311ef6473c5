import Mathlib.Data.List.Perm.Basic
import RefCheck.Proofs.Check.Locality

/-!
# Outlines in another order

Inputs are numbered as they come. Two outlines that differ in these numbers and in the order of the
inputs that are no externs lack the same names. If besides no two of these inputs declare the same
name, both find the same, apart from which of its references a missing name is reported at.
-/

namespace RefCheck

open RefCheck.Text RefCheck.Script

/-- The same surroundings in another input. -/
def Context.within (i : InputId) (c : Context) : Context := { c with input := i }

/-- The same name in another input. -/
def Mention.within (i : InputId) (m : Mention) : Mention :=
  { m with context := m.context.within i }

section Within

variable {i : InputId}

theorem inside_within (c : Context) (t : Tree) :
    (c.within i).inside t = (c.inside t).within i := by
  rw [Context.inside, Context.inside]
  split <;> rfl

theorem named_within (c : Context) (t : Tree) : (c.within i).named t = (c.named t).within i := by
  have habove : (c.within i).above = c.above := rfl
  rw [Context.named, Context.named, inside_within, habove]
  split <;> rfl

mutual

/-- A tree mentions the same names in every input. -/
theorem mentions_within (c : Context) (t : Tree) :
    t.mentions (c.within i) = (t.mentions c).map (Mention.within i) := by
  cases t with
  | node kind text span children =>
    simp only [Tree.mentions]
    rw [named_within, inside_within, List.map_append]
    have hbelow := forestMentions_within (c.named (.node kind text span children))
      (c.inside (.node kind text span children)).next children
    refine congr (congrArg _ hbelow) ?_
    split <;> rfl

theorem forestMentions_within (first rest : Context) (trees : List Tree) :
    Tree.forestMentions (first.within i) (rest.within i) trees =
      (Tree.forestMentions first rest trees).map (Mention.within i) := by
  cases trees with
  | nil => rfl
  | cons t ts =>
    rw [Tree.forestMentions, Tree.forestMentions, List.map_append, mentions_within,
      forestMentions_within]

end

end Within

namespace Check

section Images

variable {α β γ δ : Type} {xs : List α} {ys : List β} {f : α → γ} {f' : β → γ} {g : α → δ}
  {g' : β → δ}

/-- What depends on the images of items only is the same for lists with the same images. -/
theorem map_eq_of_map_eq (h : xs.map f = ys.map f')
    (hsame : ∀ x ∈ xs, ∀ y ∈ ys, f x = f' y → g x = g' y) : xs.map g = ys.map g' := by
  induction xs generalizing ys with
  | nil =>
    rw [List.map_eq_nil_iff.mp h.symm]
    rfl
  | cons x rest ih =>
    cases ys with
    | nil => cases h
    | cons y more =>
      obtain ⟨hhead, htail⟩ := List.cons.inj h
      rw [List.map_cons, List.map_cons,
        hsame x List.mem_cons_self y List.mem_cons_self hhead,
        ih htail fun z hz w hw => hsame z (.tail _ hz) w (.tail _ hw)]

theorem map_perm_of_map_perm (h : (xs.map f).Perm (ys.map f'))
    (hsame : ∀ x ∈ xs, ∀ y ∈ ys, f x = f' y → g x = g' y) : (xs.map g).Perm (ys.map g') := by
  have hself : List.Forall₂ (fun z y => z = f' y) (ys.map f') ys :=
    List.forall₂_map_left_iff.mpr (List.forall₂_same.mpr fun _ _ => rfl)
  obtain ⟨zs, hzs, hperm⟩ := List.perm_comp_forall₂ h hself
  have hmap : xs.map f = zs.map f' :=
    List.forall₂_eq_eq_eq ▸ List.forall₂_map_right_iff.mpr hzs
  rw [map_eq_of_map_eq hmap fun x hx y hy => hsame x hx y (hperm.mem_iff.mp hy)]
  exact hperm.map g'

end Images

/-- What an outline has of an input, apart from its number. -/
structure Unnumbered where
  file : String
  module : Option ModuleId
  body : List Tree

namespace Outline

variable {o o' : Outline} {i i' : InputId} {x : String} {m : Mention} {d : Diagnostic}

def unnumbered (o : Outline) (i : InputId) : Unnumbered := ⟨o.file i, o.module i, o.body i⟩

/-- The names in the script of an input. -/
def mentionsIn (o : Outline) (i : InputId) : List Mention :=
  (o.body i).flatMap (Tree.mentions (Context.top i))

theorem mentionsIn_within (h : o.unnumbered i = o'.unnumbered i') :
    o'.mentionsIn i' = (o.mentionsIn i).map (Mention.within i') := by
  have hbody : o.body i = o'.body i' := congrArg Unnumbered.body h
  rw [mentionsIn, mentionsIn, ← hbody, List.map_flatMap]
  exact List.flatMap_congr fun t _ => mentions_within (Context.top i) t

theorem input_of_mem_mentionsIn (hm : m ∈ o.mentionsIn i) : m.context.input = i := by
  obtain ⟨t, -, hm⟩ := List.mem_flatMap.mp hm
  exact Tree.input_of_mem_mentions hm

/-- Two outlines have the same externs, and the same other inputs in some order. -/
structure Reordered (o o' : Outline) : Prop where
  modules : o.modules = o'.modules
  externs : o.externs.map o.unnumbered = o'.externs.map o'.unnumbered
  mains : (o.mains.map o.unnumbered).Perm (o'.mains.map o'.unnumbered)

theorem Reordered.symm (h : o.Reordered o') : o'.Reordered o :=
  ⟨h.modules.symm, h.externs.symm, h.mains.symm⟩

/-- All inputs of one outline are among those of the other one. -/
theorem Reordered.exists_mem (h : o.Reordered o') (hi : i ∈ o.externs ++ o.mains) :
    ∃ i' ∈ o'.externs ++ o'.mains, o.unnumbered i = o'.unnumbered i' := by
  rcases List.mem_append.mp hi with hi | hi
  · have hmem := List.mem_map_of_mem (f := o.unnumbered) hi
    rw [h.externs] at hmem
    obtain ⟨i', hi', heq⟩ := List.mem_map.mp hmem
    exact ⟨i', List.mem_append_left _ hi', heq.symm⟩
  · have hmem := h.mains.mem_iff.mp (List.mem_map_of_mem (f := o.unnumbered) hi)
    obtain ⟨i', hi', heq⟩ := List.mem_map.mp hmem
    exact ⟨i', List.mem_append_right _ hi', heq.symm⟩

theorem declarer?_eq_none :
    o.declarer? x = none ↔
      ∀ i ∈ o.externs ++ o.mains, x ∉ Tree.forestDeclaredNames .script (o.body i) := by
  simp [declarer?, List.find?_eq_none, or_imp, forall_and]

theorem Reordered.declarer?_eq_none (h : o.Reordered o') (hnone : o.declarer? x = none) :
    o'.declarer? x = none := by
  rw [Outline.declarer?_eq_none] at hnone ⊢
  intro i' hi'
  obtain ⟨i, hi, heq⟩ := h.symm.exists_mem hi'
  rw [show o'.body i' = o.body i from congrArg Unnumbered.body heq]
  exact hnone i hi

/-- A name that is missing in one order is missing in every order. -/
theorem Reordered.mem_lacking (h : o.Reordered o') (hx : x ∈ o.lacking [] o.all) :
    x ∈ o'.lacking [] o'.all := by
  obtain ⟨-, m, hm, hmissing, rfl⟩ := Outline.mem_lacking.mp hx
  obtain ⟨hlabel, hname, hbound, hnone⟩ := isMissing_iff.mp hmissing
  obtain ⟨i, hi, hm⟩ := List.mem_flatMap.mp hm
  obtain ⟨i', hi', heq⟩ := h.exists_mem hi
  refine Outline.mem_lacking.mpr ⟨List.not_mem_nil, m.within i', ?_, ?_, rfl⟩
  · refine List.mem_flatMap.mpr ⟨i', hi', ?_⟩
    change m.within i' ∈ o'.mentionsIn i'
    rw [mentionsIn_within heq]
    exact List.mem_map_of_mem hm
  · exact isMissing_iff.mpr ⟨hlabel, hname, hbound, h.declarer?_eq_none hnone⟩

/-- No name is declared globally by two of the inputs that are no externs. -/
def Unambiguous (o : Outline) : Prop :=
  ∀ i ∈ o.mains, ∀ j ∈ o.mains, ∀ x, x ≠ "" →
    x ∈ Tree.forestDeclaredNames .script (o.body i) →
    x ∈ Tree.forestDeclaredNames .script (o.body j) → i = j

/-- Lists with one item at most are the same in every order. -/
theorem perm_eq {α : Type} {xs ys : List α} (h : xs.Perm ys) (hlength : xs.length ≤ 1) :
    xs = ys := by
  rcases xs with _ | ⟨a, _ | ⟨b, rest⟩⟩
  · exact h.nil_eq
  · exact List.singleton_perm.mp h
  · simp at hlength

theorem Unambiguous.length_le (h : o.Unambiguous) (hnodup : o.mains.Nodup) (hx : x ≠ "") :
    (o.mains.filter fun i => x ∈ Tree.forestDeclaredNames .script (o.body i)).length ≤ 1 := by
  have hkept := hnodup.filter fun i => decide (x ∈ Tree.forestDeclaredNames .script (o.body i))
  have hmem : ∀ i ∈ o.mains.filter (fun i => x ∈ Tree.forestDeclaredNames .script (o.body i)),
      i ∈ o.mains ∧ x ∈ Tree.forestDeclaredNames .script (o.body i) := by simp
  revert hkept hmem
  generalize o.mains.filter (fun i => x ∈ Tree.forestDeclaredNames .script (o.body i)) = kept
  intro hkept hmem
  rcases kept with _ | ⟨i, _ | ⟨j, rest⟩⟩
  · exact Nat.zero_le _
  · exact Nat.le_refl _
  · obtain ⟨hi, hxi⟩ := hmem i (by simp)
    obtain ⟨hj, hxj⟩ := hmem j (by simp)
    have hsame := h i hi j hj x hx hxi hxj
    simp [hsame] at hkept

/-- Whether an input declares a name globally. -/
def Unnumbered.declares (x : String) (u : Unnumbered) : Bool :=
  x ∈ Tree.forestDeclaredNames .script u.body

theorem declarer?_unnumbered :
    (o.declarer? x).map o.unnumbered =
      ((o.externs.map o.unnumbered).find? (Unnumbered.declares x)).or
        ((o.mains.map o.unnumbered).find? (Unnumbered.declares x)) := by
  rw [← List.find?_append, ← List.map_append, List.find?_map]
  rfl

/-- What is declared once is declared by the same input in every order. -/
theorem Reordered.declarer? (h : o.Reordered o') (hclear : o.Unambiguous)
    (hnodup : o.mains.Nodup) (hx : x ≠ "") :
    (o.declarer? x).map o.unnumbered = (o'.declarer? x).map o'.unnumbered := by
  have hmains : (o.mains.map o.unnumbered).find? (Unnumbered.declares x) =
      (o'.mains.map o'.unnumbered).find? (Unnumbered.declares x) := by
    rw [← List.head?_filter, ← List.head?_filter]
    refine congrArg List.head? (perm_eq (h.mains.filter _) ?_)
    rw [List.filter_map, List.length_map]
    exact hclear.length_le hnodup hx
  rw [declarer?_unnumbered, declarer?_unnumbered, h.externs, hmains]

theorem report_within (h : o.unnumbered m.context.input = o'.unnumbered i') (rule : Rule)
    (args : List String) : o'.report rule (m.within i') args = o.report rule m args := by
  have hfile : o.file m.context.input = o'.file i' := congrArg Unnumbered.file h
  rw [report, report, hfile]
  rfl

theorem crossing_within (h : o.unnumbered m.context.input = o'.unnumbered i')
    (hmodules : o.modules = o'.modules) {declaring declaring' : InputId}
    (hdeclaring : o.unnumbered declaring = o'.unnumbered declaring') :
    crossing false o' (m.within i') declaring' = crossing false o m declaring := by
  have hmodule : o.module m.context.input = o'.module i' := congrArg Unnumbered.module h
  have hother : o.module declaring = o'.module declaring' := congrArg Unnumbered.module hdeclaring
  simp only [crossing, report_within h]
  rw [hmodule, hother, hmodules]
  rfl

/-- What is remarked of a name does not depend on numbers. -/
theorem remarks_within (h : o.unnumbered m.context.input = o'.unnumbered i')
    (hmodules : o.modules = o'.modules)
    (hdeclarer : m.name ≠ "" →
      (o.declarer? m.name).map o.unnumbered = (o'.declarer? m.name).map o'.unnumbered) :
    remarks false o' (m.within i') = remarks false o m := by
  by_cases hname : m.name = ""
  · have hname' : (m.within i').name = "" := hname
    simp only [remarks, if_pos hname, if_pos hname', report_within h]
    rfl
  · have hsame := hdeclarer hname
    cases hdeclared : o.declarer? m.name with
    | none =>
      rw [hdeclared] at hsame
      have hdeclared' : o'.declarer? (m.within i').name = none :=
        Option.map_eq_none_iff.mp hsame.symm
      simp only [remarks, hdeclared, hdeclared', report_within h]
      rfl
    | some declaring =>
      rw [hdeclared] at hsame
      obtain ⟨declaring', hdeclared', heq⟩ := Option.map_eq_some_iff.mp hsame.symm
      have hdeclared' : o'.declarer? (m.within i').name = some declaring' := hdeclared'
      simp only [remarks, hdeclared, hdeclared', report_within h,
        crossing_within h hmodules heq.symm]
      rfl

/-- What is remarked in the script of an input. -/
def remarksIn (o : Outline) (i : InputId) : List Diagnostic :=
  (o.mentionsIn i).flatMap (remarks false o)

theorem remarksIn_eq (h : o.unnumbered i = o'.unnumbered i') (hmodules : o.modules = o'.modules)
    (hdeclarer : ∀ x, x ≠ "" →
      (o.declarer? x).map o.unnumbered = (o'.declarer? x).map o'.unnumbered) :
    o.remarksIn i = o'.remarksIn i' := by
  rw [remarksIn, remarksIn, mentionsIn_within h, List.flatMap_map]
  refine List.flatMap_congr fun m hm => ?_
  have hinput := input_of_mem_mentionsIn hm
  exact (remarks_within (hinput ▸ h) hmodules (hdeclarer m.name)).symm

theorem noEffect_mentionsIn (h : o.unnumbered i = o'.unnumbered i') :
    o.noEffect (o.mentionsIn i) = o'.noEffect (o'.mentionsIn i') := by
  rw [noEffect, noEffect, mentionsIn_within h, List.filter_map, List.map_map]
  refine List.map_congr_left fun m hm => ?_
  have hinput := input_of_mem_mentionsIn (List.mem_filter.mp hm).1
  exact (report_within (hinput ▸ h) _ _).symm

/-- The keys of what does not depend on the order of the inputs. -/
def settledKeys : List String :=
  [Rule.violatedModuleDependency.key, Rule.missingModuleDependency.key,
    Rule.invalidFunctionDeclaration.key, Rule.nameReferenceInExterns.key]

/-- All that is found but missing names has one of these keys. -/
theorem mem_settledKeys (h : d ∈ o.found false) :
    d.key ∈ settledKeys ↔ d.key ≠ Rule.undefinedVariable.key := by
  have hstrict := key_of_mem_found h
  obtain ⟨m, -, hspeaks⟩ := speaks_of_mem_found h
  have hkey : ∀ (rule : Rule) args, (o.report rule m args).key = rule.key := fun _ _ => rfl
  cases hspeaks with
  | noEffect => rw [hkey]; decide
  | missing => rw [hkey]; decide
  | unnamed => rw [hkey]; decide
  | crossing _ hrule =>
    rw [hkey] at hstrict ⊢
    have hrules : ∀ rule ∈ [Rule.strictModuleDependency, Rule.violatedModuleDependency,
        Rule.missingModuleDependency], rule.key ≠ Rule.strictModuleDependency.key →
          (rule.key ∈ settledKeys ↔ rule.key ≠ Rule.undefinedVariable.key) := by decide
    exact hrules _ hrule hstrict

/-- Without missing names, what is found is what is found in each script. -/
theorem filter_found (o : Outline) :
    (o.found false).filter (fun d => d.key ∈ settledKeys) =
      o.externs.flatMap (fun i => o.noEffect (o.mentionsIn i)) ++
        (o.externs.flatMap o.remarksIn ++ o.mains.flatMap o.remarksIn) := by
  have heffect : o.noEffect (o.mentions o.externs) =
      o.externs.flatMap fun i => o.noEffect (o.mentionsIn i) := by
    have hsplit : ∀ i, o.noEffect (o.mentionsIn i) =
        (o.mentionsIn i).flatMap fun m => o.noEffect [m] := fun i => o.noEffect_eq _
    rw [noEffect_eq, funext hsplit, ← List.flatMap_assoc]
    rfl
  have hremarks : o.all.flatMap (remarks false o) =
      o.externs.flatMap o.remarksIn ++ o.mains.flatMap o.remarksIn := by
    rw [← List.flatMap_append]
    exact List.flatMap_assoc
  have hkeys : ∀ d ∈ o.found false,
      decide (d.key ∈ settledKeys) = decide (d.key ≠ Rule.undefinedVariable.key) :=
    fun d hd => decide_eq_decide.mpr (mem_settledKeys hd)
  have hkept : (o.noEffect (o.mentions o.externs)).filter
      (fun d => d.key ≠ Rule.undefinedVariable.key) = o.noEffect (o.mentions o.externs) := by
    refine List.filter_eq_self.mpr fun d hd => decide_eq_true ?_
    rw [key_of_mem_noEffect hd]
    decide
  rw [List.filter_congr hkeys, found, List.filter_append, hkept, heffect]
  exact congrArg _ ((filter_findings []).trans hremarks)

/-- What is found is the same in every order, apart from missing names. -/
theorem Reordered.found_perm (h : o.Reordered o') (hclear : o.Unambiguous)
    (hnodup : o.mains.Nodup) :
    ((o.found false).filter fun d => d.key ∈ settledKeys).Perm
      ((o'.found false).filter fun d => d.key ∈ settledKeys) := by
  have hdeclarer : ∀ x, x ≠ "" →
      (o.declarer? x).map o.unnumbered = (o'.declarer? x).map o'.unnumbered :=
    fun x => h.declarer? hclear hnodup
  have heffect : o.externs.map (fun i => o.noEffect (o.mentionsIn i)) =
      o'.externs.map fun i => o'.noEffect (o'.mentionsIn i) :=
    map_eq_of_map_eq h.externs fun _ _ _ _ => noEffect_mentionsIn
  have hexterns : o.externs.map o.remarksIn = o'.externs.map o'.remarksIn :=
    map_eq_of_map_eq h.externs fun _ _ _ _ heq => remarksIn_eq heq h.modules hdeclarer
  have hmains : (o.mains.map o.remarksIn).Perm (o'.mains.map o'.remarksIn) :=
    map_perm_of_map_perm h.mains fun _ _ _ _ heq => remarksIn_eq heq h.modules hdeclarer
  rw [filter_found, filter_found]
  simp only [List.flatMap_def]
  rw [heffect, hexterns]
  exact (hmains.flatten.append_left _).append_left _

end Outline

end Check

end RefCheck
