import Mathlib.Data.Set.Card
import Mathlib.Data.List.Sort
import Mathlib.Tactic

/-!
# Files

A file system as far as programs that copy and rotate files see it: what is stored under each path, and when it was last
modified. Names are split at the last dot, as the standard libraries of most languages do it.
-/

namespace Files

/-- A directory and a name in it. -/
structure Location where
  dir : String
  name : String
  deriving DecidableEq

def Location.display (p : Location) : String := p.dir ++ "/" ++ p.name

/-- A file. -/
structure File (α : Type) where
  content : α
  modified : ℤ
  deriving DecidableEq

/-- What is stored under each path. -/
abbrev Store (α : Type) := Location → Option (File α)

/-! ## Names -/

/-- The stem and the extension of a name. A dot at the start does not begin an extension. -/
def splitName (name : String) : String × Option String :=
  match name.toList.reverse.dropWhile (· ≠ '.') with
  | _ :: c :: before =>
    if name = ".." then (name, none)
    else (String.ofList (c :: before).reverse, some (String.ofList (name.toList.reverse.takeWhile (· ≠ '.')).reverse))
  | _ => (name, none)

def withExtension (name extension : String) : String := (splitName name).1 ++ "." ++ extension

/-- A new extension with a dot in it makes a new name. -/
theorem withExtension_ne {name extension : String} (hdot : '.' ∈ extension.toList) : withExtension name extension ≠ name := by
  intro heq
  have hlist := congrArg String.toList heq
  simp only [withExtension, String.toList_append] at hlist
  unfold splitName at hlist
  have hsplit := List.takeWhile_append_dropWhile (p := fun c => decide (c ≠ '.')) (l := name.toList.reverse)
  have hlen : ∀ l : List Char, l ++ ".".toList ++ extension.toList ≠ l := fun l h => by
    have := congrArg List.length h
    simp at this
  split at hlist
  · rename_i d c before hdrop
    split_ifs at hlist with hdots
    · exact hlen _ hlist
    · -- the old extension has no dot
      have hd : d = '.' := by
        have hhead := List.head?_dropWhile_not (fun c => decide (c ≠ '.')) name.toList.reverse
        rw [hdrop] at hhead
        simpa using hhead
      rw [hdrop] at hsplit
      have hname : name.toList = (c :: before).reverse ++ ['.'] ++
          (name.toList.reverse.takeWhile fun c => decide (c ≠ '.')).reverse := by
        have := congrArg List.reverse hsplit
        simpa [hd] using this.symm
      have hext : extension.toList = (name.toList.reverse.takeWhile fun c => decide (c ≠ '.')).reverse := by
        refine @List.append_cancel_left _ ((c :: before).reverse ++ ['.']) _ _ ?_
        rw [← hname, ← hlist]
        simp
      rw [hext, List.mem_reverse] at hdot
      have hall := List.all_eq_true.mp List.all_takeWhile _ hdot
      simp at hall
  · exact hlen _ hlist

theorem splitName_append {stem extension : String} (hstem : stem ≠ "") (hext : extension ≠ "") (hdot : '.' ∉ extension.toList) :
    splitName (stem ++ "." ++ extension) = (stem, some extension) := by
  obtain ⟨c, before, hrev⟩ := List.exists_cons_of_ne_nil (l := stem.toList.reverse)
    fun h => hstem (String.toList_inj.mp (List.reverse_eq_nil_iff.mp h))
  have hlist : (stem ++ "." ++ extension).toList.reverse = extension.toList.reverse ++ '.' :: c :: before := by
    simp only [String.toList_append, List.reverse_append, hrev]
    rfl
  have hall : ∀ d ∈ extension.toList.reverse, decide (d ≠ '.') = true := fun d hd =>
    decide_eq_true fun h => hdot (h ▸ List.mem_reverse.mp hd)
  have hdrop : (extension.toList.reverse ++ '.' :: c :: before).dropWhile (fun d => decide (d ≠ '.')) = '.' :: c :: before := by
    rw [List.dropWhile_append_of_pos hall]
    rfl
  have htake : (extension.toList.reverse ++ '.' :: c :: before).takeWhile (fun d => decide (d ≠ '.')) = extension.toList.reverse := by
    rw [List.takeWhile_append_of_pos hall]
    simp
  have hdots : stem ++ "." ++ extension ≠ ".." := fun h => by
    have hcs := congrArg (fun s => s.toList.reverse) h
    simp only [hlist] at hcs
    cases hcs' : extension.toList.reverse with
    | nil => exact hext (String.toList_inj.mp (List.reverse_eq_nil_iff.mp hcs'))
    | cons d ds =>
      rw [hcs'] at hcs hall
      have hd : d = '.' := (List.cons.inj hcs).1
      exact absurd hd (by simpa using hall d List.mem_cons_self)
  unfold splitName
  simp only [hlist, hdrop, htake]
  rw [if_neg hdots, ← hrev, List.reverse_reverse, List.reverse_reverse, String.ofList_toList, String.ofList_toList]

/-! ## Operations -/

namespace Store

variable {α : Type} {files : Store α} {p q : Location} {f : File α} {c : α}

/-- A file is written, whatever was there. -/
def write (files : Store α) (p : Location) (f : File α) : Store α := Function.update files p (some f)

def remove (files : Store α) (p : Location) : Store α := Function.update files p none

/-- `rename`: a file in the place of the new name is replaced. -/
def rename (files : Store α) (p q : Location) : Store α := fun x => if x = q then files p else if x = p then none else files x

@[simp] theorem write_self : files.write p f p = some f := Function.update_self ..

@[simp] theorem write_of_ne (h : q ≠ p) : files.write p f q = files q := Function.update_of_ne h ..

@[simp] theorem remove_of_ne (h : q ≠ p) : files.remove p q = files q := Function.update_of_ne h ..

@[simp] theorem remove_self : files.remove p p = none := Function.update_self ..

def content (files : Store α) (p : Location) : Option α := (files p).map File.content

/-- Some file holds it. -/
def Holds (files : Store α) (c : α) : Prop := ∃ p, files.content p = some c

theorem content_write_of_ne (h : q ≠ p) : (files.write p f).content q = files.content q := congrArg _ (write_of_ne h)

theorem isSome_content : (files.content p).isSome = (files p).isSome := Option.isSome_map ..

end Store

/-! ## The newest files -/

/-- The newest first; of files of one time, the first listed first. -/
def newestFirst (rows : List (ℤ × Location)) : List (ℤ × Location) := rows.insertionSort fun a b => b.1 ≤ a.1

theorem mem_newestFirst {rows : List (ℤ × Location)} {x : ℤ × Location} : x ∈ newestFirst rows ↔ x ∈ rows := List.mem_insertionSort _

/-- A file is among the first `keep` if fewer than that many others are as new. -/
theorem mem_take_newestFirst {rows : List (ℤ × Location)} {x : ℤ × Location} {keep : ℕ} (hrows : rows.Nodup) (hx : x ∈ rows)
    (hfew : (rows.filter fun y => y ≠ x ∧ x.1 ≤ y.1).length < keep) : x ∈ (newestFirst rows).take keep := by
  have hsorted : (newestFirst rows).Pairwise fun a b => b.1 ≤ a.1 :=
    haveI : Std.Total fun a b : ℤ × Location => b.1 ≤ a.1 := ⟨fun a b => le_total b.1 a.1⟩
    haveI : IsTrans (ℤ × Location) fun a b => b.1 ≤ a.1 := ⟨fun _ _ _ hab hbc => hbc.trans hab⟩
    List.pairwise_insertionSort _ rows
  have hperm : (newestFirst rows).Perm rows := List.perm_insertionSort _ rows
  by_contra hout
  have hdrop : x ∈ (newestFirst rows).drop keep := by
    have hmem := mem_newestFirst.mpr hx
    rw [← List.take_append_drop keep (newestFirst rows)] at hmem
    exact (List.mem_append.mp hmem).resolve_left hout
  -- all that come before it are as new, and others
  have hall : ∀ y ∈ (newestFirst rows).take keep, y ≠ x ∧ x.1 ≤ y.1 := fun y hy => by
    rw [← List.take_append_drop keep (newestFirst rows)] at hsorted
    exact ⟨fun heq => hout (heq ▸ hy), (List.pairwise_append.mp hsorted).2.2 y hy x hdrop⟩
  have hlen : ((newestFirst rows).take keep).length = keep :=
    List.length_take_of_le (Nat.le_of_lt (List.length_pos_of_mem hdrop |> fun h => by rw [List.length_drop] at h; omega))
  have hsub : ((newestFirst rows).take keep).length ≤ (rows.filter fun y => y ≠ x ∧ x.1 ≤ y.1).length := by
    refine List.Subperm.length_le ((List.subperm_of_subset ?_ ?_))
    · exact (List.take_sublist _ _).nodup (hperm.nodup_iff.mpr hrows)
    · intro y hy
      exact List.mem_filter.mpr ⟨mem_newestFirst.mp (List.mem_of_mem_take hy), by simpa using hall y hy⟩
  omega

end Files
