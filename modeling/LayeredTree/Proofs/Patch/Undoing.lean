import LayeredTree.Proofs.Patch.Ends

/-!
Merges are all or nothing. Whichever request fails while the files are written, and whatever it did
until then, the whole output is gone again; a merge that succeeds has made its output and nothing
else but the directory it lies in.
-/

set_option autoImplicit false

namespace LayeredTree

open World

/-- What happens to a file in place of being written. Either not all directories on the way to it
are made, at most those for the given one of its ancestors; or all are made, and the file itself is
not opened, or is left with this content. -/
inductive Mishap
  | onTheWay (ancestor : Option Nat) (fault : IoFault)
  | atTheFile (content : Option Bytes) (fault : IoFault)

namespace Mishap

variable {d : Disk} {out : Path} {root init names : Location} {name : Name}

def leaves (root : Path) (key : Key) (d : Disk) : Mishap → Disk
  | onTheWay ancestor _ =>
    match ancestor.bind fun i => (Key.ancestors key)[i]? with
    | some above => after (Disk.makeDirectories (Key.path root above)) d
    | none => d
  | atTheFile content _ =>
    let made := match (Key.path root key).parent with
      | some parent => after (Disk.makeDirectories parent) d
      | none => d
    match content with
    | some content => after (Disk.writeFile (Key.path root key) content) made
    | none => made

def error (target source : Path) : Mishap → StorageError
  | onTheWay _ fault => .ofIo fault
  | atTheFile _ fault => .io (.copying source target fault)

private theorem sameOutside_dirs (host : d.Hosts out root) (way : d.Passable root init) :
    Disk.SameOutside root d (after (Disk.makeDirectories (Disk.pathBelow out init)) d) := by
  by_cases short : Disk.Short (Disk.pathBelow out init)
  · obtain ⟨d', made, raised⟩ := host.raise way short
    rw [after_of_ok made]
    exact raised.sameOutside
  · obtain ⟨fault, refused⟩ :=
      d.makeDirectories_of_long (Disk.pathBelow_ne_nil host.reaches.1 init) short
    rw [after_of_error refused]
    exact .refl root d

private theorem sameOutside_file (host : d.Hosts out root) (way : d.Passable root init)
    (vacant : d.get? (root ++ init ++ [name]) = none) (content : Bytes) :
    Disk.SameOutside root d (after (Disk.writeFile (Disk.pathBelow out (init ++ [name])) content)
      (after (Disk.makeDirectories (Disk.pathBelow out init)) d)) := by
  refine (sameOutside_dirs host way).trans ?_
  by_cases short : Disk.Short (Disk.pathBelow out (init ++ [name]))
  · obtain ⟨d', made, raised⟩ := host.raise way (Disk.short_of_append host.reaches.1 short)
    rw [after_of_ok made]
    have isDir := raised.isDirectory host.isDirectory
    have reach := (host.reaches.mono (raised.within way)).below isDir rfl
    have free : d'.get? (root ++ init ++ [name]) = none := by
      rw [raised.get?, if_neg, vacant]
      rintro ⟨-, -, le⟩
      exact Location.not_child_prefix _ _ le
    rw [Disk.pathBelow_concat] at short ⊢
    obtain ⟨d'', written, filed⟩ := Disk.writeFile_of_free reach isDir free short content
    rw [after_of_ok written]
    refine ⟨filed.here, fun other away => ?_⟩
    rw [filed.get?, if_neg]
    rintro rfl
    exact away ⟨by simp, by simp⟩
  · obtain ⟨fault, refused⟩ := Disk.writeFile_of_long
      (after (Disk.makeDirectories (Disk.pathBelow out init)) d) content
      (Disk.pathBelow_ne_nil host.reaches.1 (init ++ [name])) short
    rw [after_of_error refused]
    exact .refl root _

theorem sameOutside_leaves (mishap : Mishap) (host : d.Hosts out root) (tidy : out.IsTidy)
    (way : d.Passable root init) (vacant : d.get? (root ++ init ++ [name]) = none) :
    Disk.SameOutside root d (mishap.leaves out (Location.key (init ++ [name])) d) := by
  cases mishap with
  | onTheWay ancestor fault =>
    rw [leaves]
    split
    · rename_i above found
      obtain ⟨i, -, listed⟩ := Option.bind_eq_some_iff.mp found
      obtain ⟨upper, rest, ne, ne', whole, rfl⟩ :=
        Location.mem_ancestors_key_iff.mp (List.mem_of_getElem? listed)
      rw [Location.path_key ne]
      refine sameOutside_dirs host fun prior le => way prior (le.trans ?_)
      obtain ⟨more, last, rfl⟩ : ∃ more last, rest = more ++ [last] :=
        ⟨_, _, (List.dropLast_concat_getLast ne').symm⟩
      rw [← List.append_assoc] at whole
      exact ⟨more, (List.append_inj' whole rfl).1.symm⟩
    · exact .refl root d
  | atTheFile content fault =>
    have tidy' : (Disk.pathBelow out init).IsTidy := by
      by_cases top : init = []
      · rwa [top]
      · exact Disk.isTidy_pathBelow host.reaches.1 top
    have parent : (Disk.pathBelow out (init ++ [name])).parent = some (Disk.pathBelow out init) := by
      rw [Disk.pathBelow_concat]
      exact tidy'.parent_child name
    unfold leaves
    dsimp only
    rw [Location.path_key (by simp), parent]
    cases content with
    | none => exact sameOutside_dirs host way
    | some content => exact sameOutside_file host way vacant content

end Mishap
namespace MergePlan

/-- Copies the files of a plan below a root, until it comes to one that meets with a mishap. -/
def writeAmid (mishaps : Key → Option Mishap) (root : Path) :
    KeyMap Source → Action StorageError Unit
  | [] => pure ()
  | (key, source) :: rest => fun w =>
    match mishaps key with
    | some mishap => .error (mishap.error (Key.path root key) source.path)
        { w with disk := mishap.leaves root key w.disk }
    | none => (write root [(key, source)] >>= fun _ => writeAmid mishaps root rest) w

variable {w : World} {d : Disk} {out : Path} {goal : Location}

theorem write_cons (root : Path) (file : Key × Source) (rest : KeyMap Source) :
    write root (file :: rest) = (write root [file] >>= fun _ => write root rest) := by
  obtain ⟨key, source⟩ := file
  rw [write, write]
  cases (Key.path root key).parent with
  | none => simp only [write, bind_assoc, pure_bind]
  | some parent => simp only [write, bind_assoc, pure_bind]

theorem writeAmid_none (root : Path) (files : KeyMap Source) :
    writeAmid (fun _ => none) root files = write root files := by
  induction files with
  | nil => rfl
  | cons file rest ih =>
    funext w
    change (write root [file] >>= fun _ => writeAmid (fun _ => none) root rest) w = _
    rw [ih, ← write_cons]

theorem sameOutside_writeAmid {target : Location → Option Bytes} (mishaps : Key → Option Mishap)
    (apart : Disk.Apart target) (tidy : out.IsTidy) (files : KeyMap Source) (done : List Key)
    (sorted : files.Sorted) (new : ∀ p ∈ files, p.1 ∉ done) (w : World)
    (host : w.disk.Hosts out goal) (writable : Writable w.disk target files)
    (holdsTree : w.disk.HoldsTree goal (Disk.soFar target done)) :
    Disk.SameOutside goal w.disk (after (writeAmid mishaps out files) w).disk := by
  induction files generalizing done w with
  | nil => exact .refl goal w.disk
  | cons file rest ih =>
    have first : Writable w.disk target [file] := fun p hp =>
      writable p (List.mem_cons.mpr (.inl (List.mem_singleton.mp hp)))
    have fresh : ∀ p ∈ [file], p.1 ∉ done := fun p hp =>
      new p (List.mem_cons.mpr (.inl (List.mem_singleton.mp hp)))
    obtain ⟨d, sub, outside, ends⟩ := write_from apart tidy [file] done
      (List.pairwise_singleton _ _) fresh w host first holdsTree
    obtain ⟨key, source⟩ := file
    cases met : mishaps key with
    | some mishap =>
      have cut : writeAmid mishaps out ((key, source) :: rest) w =
          .error (mishap.error (Key.path out key) source.path)
            { w with disk := mishap.leaves out key w.disk } := by
        simp only [writeAmid, met]
      rw [after_of_error cut]
      obtain ⟨names, content, ne, rfl, value, -⟩ := writable _ List.mem_cons_self
      obtain ⟨init, name, rfl⟩ : ∃ init name, names = init ++ [name] :=
        ⟨_, _, (List.dropLast_concat_getLast ne).symm⟩
      obtain ⟨vacant, way⟩ := holdsTree.way apart host.isDirectory (new _ List.mem_cons_self)
        (by rw [value]; nofun)
      rw [← List.append_assoc] at vacant
      exact mishap.sameOutside_leaves host tidy way vacant
    | none =>
      have step : writeAmid mishaps out ((key, source) :: rest) w =
          (write out [(key, source)] >>= fun _ => writeAmid mishaps out rest) w := by
        simp only [writeAmid, met]
      rcases ends with ⟨-, run, carried⟩ | ⟨-, e, run⟩
      · have later : Writable d target rest := by
          intro p hp
          obtain ⟨names, content, ne, same, value, held⟩ :=
            writable p (List.mem_cons_of_mem _ hp)
          exact ⟨names, content, ne, same, value, Disk.contentAt?_mono sub held⟩
        have outside' := ih (key :: done) (List.pairwise_cons.mp sorted).2
          (KeyMap.notMem_of_sorted sorted new) { w with disk := d } (host.mono sub) later carried
        unfold after at outside' ⊢
        rw [step, bind_of_ok run]
        exact outside.trans outside'
      · rw [after_of_error (step.trans (bind_of_error run))]
        exact outside

end MergePlan
namespace Patch

variable {w w₁ : World} {d₁ : Disk} {base patch : List TreeEntry} {markers : List String}
variable {mergeRoot before after out : Path} {record : PatchRecord} {plan : MergePlan}
variable {goal : Location}

theorem sameOutside_of_plan (mishaps : Key → Option Mishap)
    (hb : w.disk.walk .content before = .ok base) (hp : w.disk.walk .content after = .ok patch)
    (build : MergePlan.build base patch markers = .ok plan) (grown : w.disk.Within d₁)
    (tidy : out.IsTidy) (opened : d₁.Opened out goal w₁.disk) :
    Disk.SameOutside goal w₁.disk
      (LayeredTree.after (MergePlan.writeAmid mishaps out plan.files) w₁).disk := by
  obtain ⟨baseLoc, wb⟩ := Disk.walked_of_walk hb
  obtain ⟨patchLoc, wp⟩ := Disk.walked_of_walk hp
  obtain ⟨mergeable, sorted, get⟩ := of_build wb wp build
  exact MergePlan.sameOutside_writeAmid mishaps (mergeable.apart_names wb wp) tidy plan.files []
    sorted (by simp) w₁ opened.hosts
    (writable_of_sources wb wp (grown.trans opened.within) sorted get)
    (Disk.holdsTree_of_isBare opened.bare)

/-- A merge in which files meet with mishaps. -/
def mergeAmid (mishaps : Key → Option Mishap) (mergeRoot before after : Path)
    (record : PatchRecord) : Action CombineError Path :=
  mergeBy (MergePlan.writeAmid mishaps) mergeRoot before after record

theorem mergeAmid_none : mergeAmid (fun _ => none) = mergeWith := by
  have same : MergePlan.writeAmid (fun _ => none) = MergePlan.write := by
    funext root files
    exact MergePlan.writeAmid_none root files
  funext mergeRoot before after record
  rw [mergeAmid, same, mergeWith]

/-- What a merge leaves on a disk, by how it ends. After an error the merge root and its parents may
have been made, and after a conflict, or if a tree could not be walked, not even these. After a
success there is one new directory, in the merge root, besides. -/
def AllOrNothing (mergeRoot before after : Path) (d : Disk) :
    EStateM.Result CombineError World Path → Prop
  | .error e v => d.Paved mergeRoot v.disk ∧
      ((∃ conflict, e = .mergeConflict conflict) ∨ (∃ fault, d.walk .content before = .error fault) ∨
        (∃ fault, d.walk .content after = .error fault) → v.disk = d)
  | .ok out v => ∃ d₁ top name, d.Paved mergeRoot d₁ ∧
      d₁.Reaches (d.absolute mergeRoot) top ∧ out = (d.absolute mergeRoot).child (Name.bytes name) ∧
      d₁.NewAt (top ++ [name]) v.disk ∧ v.disk.Hosts out (top ++ [name])

private theorem eq_of_early {e : CombineError} {d d' : Disk}
    (hb : d.walk .content before = .ok base) (hp : d.walk .content after = .ok patch)
    (other : ∀ conflict, e ≠ .mergeConflict conflict) :
    (∃ conflict, e = .mergeConflict conflict) ∨ (∃ fault, d.walk .content before = .error fault) ∨
      (∃ fault, d.walk .content after = .error fault) → d' = d := by
  rintro (⟨conflict, rfl⟩ | ⟨fault, failed⟩ | ⟨fault, failed⟩)
  · exact absurd rfl (other conflict)
  · cases hb.symm.trans failed
  · cases hp.symm.trans failed

private theorem allOrNothing_of_fresh (mishaps : Key → Option Mishap) {u u₁ : World}
    (planned : Patch.plan before after record.removed (merging before after w) = .ok plan u)
    (hb : w.disk.walk .content before = .ok base) (hp : w.disk.walk .content after = .ok patch)
    (build : MergePlan.build base patch record.removed = .ok plan)
    (made : Disk.makeDirectories mergeRoot u.disk = .ok () d₁)
    (paved : w.disk.Paved mergeRoot d₁)
    (fresh : freshDirectory mergeRoot mergedName { u with disk := d₁ } = .ok out u₁) :
    AllOrNothing mergeRoot before after w.disk
      (mergeAmid mishaps mergeRoot before after record w) := by
  obtain ⟨top, n, name, -, e, reach, opened⟩ := of_freshDirectory_below (by decide) fresh
  have tidy : out.IsTidy := by
    rw [e]
    exact Path.isTidy_child (Path.ne_nil_of_isAbsolute (isAbsolute_absolute _ _)) name
  have outside := sameOutside_of_plan mishaps hb hp build paved.dug.within tidy opened
  have new := outside.newAt opened.newAt
  have isDir := (outside.2 (top ++ [name]) fun below => below.2 rfl).trans
    opened.hosts.isDirectory
  have root := Disk.absolute_congr paved.dug.here mergeRoot
  have short := opened.hosts.short
  rw [e] at short
  cases written : MergePlan.writeAmid mishaps out plan.files u₁ with
  | error fault u₂ =>
    rw [after_of_error written] at new isDir
    obtain ⟨v, abandoned, gone⟩ := abandon_run out fault u₂
    rw [show mergeAmid mishaps mergeRoot before after record w = _ from
      inside_of_error ((opening_run planned made fresh).trans
        ((bind_of_ok (outcome_of_error written)).trans abandoned))]
    refine ⟨paved.congr (new.pruned ?_), eq_of_early hb hp nofun⟩
    change u₂.disk.Pruned _ v.disk
    rw [gone, e]
    exact reach.after_removeTree_child new.within new.free isDir short
  | ok _ u₂ =>
    rw [after_of_ok written] at new isDir
    rw [show mergeAmid mishaps mergeRoot before after record w = _ from
      inside_of_ok ((opening_run planned made fresh).trans
        (bind_of_ok (outcome_of_ok written)))]
    refine ⟨d₁, top, name, paved, root ▸ reach, root ▸ e, new, ?_, isDir, opened.hosts.short⟩
    rw [e]
    exact (reach.mono new.within).child isDir rfl

theorem allOrNothing_mergeAmid (mishaps : Key → Option Mishap) (mergeRoot before after : Path)
    (record : PatchRecord) (w : World) : AllOrNothing mergeRoot before after w.disk
      (mergeAmid mishaps mergeRoot before after record w) := by
  have kept := alike_after_plan before after record.removed (merging before after w)
  cases planned : Patch.plan before after record.removed (merging before after w) with
  | error e u =>
    rw [after_of_error planned] at kept
    rw [show mergeAmid mishaps mergeRoot before after record w = _ from
      inside_of_error (bind_of_error planned)]
    have same : u.disk = w.disk := kept.disk.symm
    exact ⟨by rw [same]; exact .refl w.disk mergeRoot, fun _ => same⟩
  | ok plan u =>
    rw [after_of_ok planned] at kept
    obtain ⟨base, patch, hb, hp, build⟩ := of_plan planned
    have same : u.disk = w.disk := kept.disk.symm
    have paved := Disk.paved_makeDirectories mergeRoot w.disk
    cases made : Disk.makeDirectories mergeRoot w.disk with
    | error fault d =>
      rw [after_of_error made] at paved
      rw [← same] at made
      rw [show mergeAmid mishaps mergeRoot before after record w = _ from inside_of_error
        ((bind_of_ok planned).trans (bind_of_error (failingAs_of_error (onDisk_of_error made))))]
      exact ⟨paved, eq_of_early hb hp nofun⟩
    | ok _ d =>
      rw [after_of_ok made] at paved
      rw [← same] at made
      cases fresh : freshDirectory mergeRoot mergedName { u with disk := d } with
      | error fault u₁ =>
        rw [show mergeAmid mishaps mergeRoot before after record w = _ from inside_of_error
          ((bind_of_ok planned).trans ((bind_of_ok (failingAs_of_ok (onDisk_of_ok made))).trans
            (bind_of_error (failingAs_of_error fresh))))]
        have still : u₁.disk = d := after_freshDirectory_of_error fresh
        exact ⟨by rw [still]; exact paved, eq_of_early hb hp nofun⟩
      | ok out u₁ => exact allOrNothing_of_fresh mishaps planned hb hp build made paved fresh

/-- Merges are all or nothing, without mishaps and amid any: an error leaves the disk as it was, but
for the merge root and its parents, and a success adds the output alone. -/
theorem merge_all_or_nothing (mergeRoot before after : Path) (record : PatchRecord) (w : World) :
    AllOrNothing mergeRoot before after w.disk (mergeWith mergeRoot before after record w) ∧
    ∀ mishaps, AllOrNothing mergeRoot before after w.disk
      (mergeAmid mishaps mergeRoot before after record w) := by
  refine ⟨?_, fun mishaps => allOrNothing_mergeAmid mishaps mergeRoot before after record w⟩
  rw [← mergeAmid_none]
  exact allOrNothing_mergeAmid _ mergeRoot before after record w

end Patch
end LayeredTree
