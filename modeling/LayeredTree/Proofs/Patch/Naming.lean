import Mathlib.Data.List.Nodup
import Mathlib.Data.List.Perm.Subperm
import LayeredTree.Patch.Merge
import LayeredTree.Proofs.FreshNames

set_option autoImplicit false

namespace LayeredTree

variable {d : Disk} {p : Path} {root : Location} {w : World}

namespace World

theorem mod_eq_of_freshDigits {width n m : Nat} (h : freshDigits width n = freshDigits width m) :
    n % 62 ^ width = m % 62 ^ width := by
  have letters : ∀ i < 62, ∀ j < 62, freshAlphabet.getD i 48 = freshAlphabet.getD j 48 → i = j := by
    intro i hi j hj e
    have distinct : freshAlphabet.Nodup := by decide
    have length : freshAlphabet.length = 62 := by decide
    have hi' : i < freshAlphabet.length := by omega
    have hj' : j < freshAlphabet.length := by omega
    rw [List.getD_eq_getElem?_getD, List.getD_eq_getElem?_getD, List.getElem?_eq_getElem hi',
      List.getElem?_eq_getElem hj'] at e
    exact distinct.getElem_inj_iff.mp e
  induction width generalizing n m with
  | zero => rw [Nat.pow_zero, Nat.mod_one, Nat.mod_one]
  | succ width ih =>
    rw [freshDigits, freshDigits] at h
    obtain ⟨front, last⟩ := List.append_inj' h rfl
    have lower := letters _ (Nat.mod_lt _ (by decide)) _ (Nat.mod_lt _ (by decide))
      (List.cons_eq_cons.mp last).1
    rw [Nat.pow_succ, Nat.mul_comm, Nat.mod_mul, Nat.mod_mul, ih front, lower]

theorem freshDigits_of_mod {width n m : Nat} (h : n % 62 ^ width = m % 62 ^ width) :
    freshDigits width n = freshDigits width m := by
  induction width generalizing n m with
  | zero => rfl
  | succ width ih =>
    have last : n % 62 = m % 62 := by
      have both := congrArg (· % 62) h
      simpa only [Nat.pow_succ, Nat.mod_mul_left_mod] using both
    have front : n / 62 % 62 ^ width = m / 62 % 62 ^ width := by
      have both := congrArg (· / 62) h
      simpa only [Nat.pow_succ', Nat.mod_mul_right_div_self] using both
    rw [freshDigits, freshDigits, ih front, last]

end World

namespace Patch

theorem isName_merged (n : Nat) :
    IsName (mergedName ++ World.freshDigits World.freshWidth n) := by
  have length : mergedName.length = 6 := by decide
  have long := World.length_freshDigits World.freshWidth n
  have first : mergedName = 109 :: [101, 114, 103, 101, 45] := by decide
  refine ⟨?_, ?_, ?_, ?_, ?_⟩
  · rw [first]
    rfl
  · rw [first]
    nofun
  · rw [List.mem_append, not_or]
    exact ⟨by decide, World.notMem_freshDigits (by decide) _ _⟩
  · rw [List.mem_append, not_or]
    exact ⟨by decide, World.notMem_freshDigits (by decide) _ _⟩
  · rw [List.length_append, length, long]
    decide

def mergedChild (n : Nat) : Name :=
  ⟨mergedName ++ World.freshDigits World.freshWidth n, isName_merged n⟩

theorem exists_tryFresh (k : Nat) {tries : Nat} (more : k < tries) (reach : w.disk.Reaches p root)
    (isDir : w.disk.IsDirectory root) (short : ∀ n, Disk.Short (p.child (mergedChild n).bytes))
    (free : w.disk.get? (root ++ [mergedChild (w.serial + k)]) = none) : ∃ n serial,
      w.disk.get? (root ++ [mergedChild n]) = none ∧
        World.tryFresh p mergedName tries w = .ok (p.child (mergedChild n).bytes)
          { w with disk := w.disk.plant (root ++ [mergedChild n]) .directory, serial := serial } := by
  induction tries generalizing k w with
  | zero => omega
  | succ tries ih =>
    have last := reach.resolveLast_child isDir (short w.serial)
    rcases World.tryFresh_cases p mergedName tries w with
      ⟨dir, name, closed, found, vacant, run⟩ | ⟨fault, failed, run⟩
    · cases last.symm.trans found
      exact ⟨w.serial, w.serial + 1, vacant, run⟩
    · have taken : w.disk.get? (root ++ [mergedChild w.serial]) ≠ none := by
        intro vacant
        have made : Disk.makeDirectory _ w.disk = _ := Disk.create_of_free last vacant (.inr rfl)
        cases made.symm.trans failed
      have known : Disk.makeDirectory _ w.disk = _ := Disk.create_of_taken last taken
      cases known.symm.trans failed
      cases k with
      | zero => exact absurd free taken
      | succ k =>
        have free' : w.disk.get? (root ++ [mergedChild (w.serial + 1 + k)]) = none := by
          rwa [Nat.add_right_comm, Nat.add_assoc]
        rw [run, if_pos rfl]
        have rest : k < tries := by omega
        obtain ⟨n, serial, vacant, run'⟩ :=
          ih (w := { w with serial := w.serial + 1 }) k rest reach isDir free'
        exact ⟨n, serial, vacant, run'⟩

theorem mergedChild_eq_iff {n m : Nat} : mergedChild n = mergedChild m ↔
    n % 62 ^ World.freshWidth = m % 62 ^ World.freshWidth := by
  refine ⟨fun h => World.mod_eq_of_freshDigits (List.append_cancel_left (congrArg Name.bytes h)),
    fun h => Name.bytes_injective ?_⟩
  exact congrArg (mergedName ++ ·) (World.freshDigits_of_mod h)

theorem exists_free_name {taken : List Name} (few : taken.length < 62 ^ World.freshWidth) :
    ∃ n, mergedChild n ∉ taken := by
  by_contra full
  have named : ((List.range (taken.length + 1)).map mergedChild) ⊆ taken := by
    intro name hm
    obtain ⟨k, -, rfl⟩ := List.mem_map.mp hm
    by_contra free
    exact full ⟨k, free⟩
  have distinct : ((List.range (taken.length + 1)).map mergedChild).Nodup := by
    refine List.Nodup.map_on (fun i hi j hj e => ?_) List.nodup_range
    have same := mergedChild_eq_iff.mp e
    have hi' := List.mem_range.mp hi
    have hj' := List.mem_range.mp hj
    rwa [Nat.mod_eq_of_lt (by omega), Nat.mod_eq_of_lt (by omega)] at same
  have fits := (List.subperm_of_subset distinct named).length_le
  rw [List.length_map, List.length_range] at fits
  omega

/-- If there is a free name, one of those that are tried is free: they are more than there are
entries, or all there are. -/
theorem exists_free {n : Nat} (free : d.get? (root ++ [mergedChild n]) = none) (serial : Nat) :
    ∃ k ≤ d.nodes.length, d.get? (root ++ [mergedChild (serial + k)]) = none := by
  by_contra full
  have taken : ∀ k ≤ d.nodes.length, d.get? (root ++ [mergedChild (serial + k)]) ≠ none :=
    fun k le free => full ⟨k, le, free⟩
  have size : 62 ^ World.freshWidth = 56800235584 := rfl
  -- The free name comes up among all that differ, so not so many are tried.
  have few : d.nodes.length + 1 ≤ 62 ^ World.freshWidth := by
    by_contra many
    let k := (n + (62 ^ World.freshWidth - serial % 62 ^ World.freshWidth)) % 62 ^ World.freshWidth
    have small : k < 62 ^ World.freshWidth := Nat.mod_lt _ (by decide)
    have same : mergedChild (serial + k) = mergedChild n := by
      rw [mergedChild_eq_iff]
      simp only [k, size]
      omega
    exact taken k (by omega) (same ▸ free)
  have distinct : ((List.range (d.nodes.length + 1)).map
      fun k => root ++ [mergedChild (serial + k)]).Nodup := by
    refine List.Nodup.map_on (fun i hi j hj e => ?_) List.nodup_range
    have same := mergedChild_eq_iff.mp (by simpa using e)
    have hi' := List.mem_range.mp hi
    have hj' := List.mem_range.mp hj
    rw [size] at same few
    omega
  have listed : ((List.range (d.nodes.length + 1)).map
      fun k => root ++ [mergedChild (serial + k)]) ⊆ d.nodes.map Prod.fst := by
    intro place hm
    obtain ⟨k, hk, rfl⟩ := List.mem_map.mp hm
    have le : k ≤ d.nodes.length := Nat.le_of_lt_succ (List.mem_range.mp hk)
    obtain ⟨node, hn⟩ := Option.ne_none_iff_exists'.mp (taken k le)
    exact List.mem_map_of_mem (f := Prod.fst) ((d.get?_eq_some_iff (by simp) node).mp hn)
  have fits := (List.subperm_of_subset distinct listed).length_le
  simp only [List.length_map, List.length_range] at fits
  omega

theorem exists_freshDirectory {n : Nat} (absolute : p.isAbsolute = true)
    (reach : w.disk.Reaches p root) (isDir : w.disk.IsDirectory root)
    (short : ∀ n, Disk.Short (p.child (mergedChild n).bytes))
    (free : w.disk.get? (root ++ [mergedChild n]) = none) : ∃ n serial,
      w.disk.get? (root ++ [mergedChild n]) = none ∧
        World.freshDirectory p mergedName w = .ok (p.child (mergedChild n).bytes)
          { w with disk := w.disk.plant (root ++ [mergedChild n]) .directory, serial := serial } := by
  obtain ⟨k, le, free'⟩ := exists_free free w.serial
  obtain ⟨n, serial, vacant, run⟩ := exists_tryFresh k (Nat.lt_succ_of_le le) reach isDir short free'
  refine ⟨n, serial, vacant, ?_⟩
  unfold World.freshDirectory
  rw [bind_of_ok (show (get : Action IoFault World) w = .ok w w from rfl)]
  rw [if_pos absolute, run]

theorem of_freshMerged {place : Location} {out : Path} {w' : World}
    (reach : w.disk.Reaches (Location.path place) root)
    (h : World.freshDirectory (Location.path place) mergedName w = .ok out w') : ∃ n,
      out = Location.path (place ++ [mergedChild n]) ∧
        w.disk.Opened out (root ++ [mergedChild n]) w'.disk := by
  obtain ⟨n, name, named, e, opened⟩ := World.of_freshDirectory_path (by decide) reach h
  obtain rfl : name = mergedChild n := Name.bytes_injective named
  exact ⟨n, e, opened⟩

end Patch
end LayeredTree
