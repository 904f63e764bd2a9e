import LayeredTree.Proofs.Staging.Combining
import LayeredTree.Proofs.Staging.Faithful

set_option autoImplicit false

namespace LayeredTree

open World Chain

variable {ε : Type} {w v : World} {d d' : Disk} {area : WorkArea} {data temp top : Location}
variable {before patch output : Path} {signature : Signature}

namespace Combiner

section Direct

open Staging

variable {u₁ u₂ u₃ : Disk} {b l : Name} {n : Nat} {record : PatchRecord}
variable {base layer : List TreeEntry}

theorem Merges.fits {request : CombineRequest} (root : area.tempRoot = Location.path temp)
    (h : Merges request temp u₂ u₃ top n record base layer) (key : Key)
    (there : Patch.merged (u₂.contentsOf base) (u₂.contentsOf layer) record.removed key ≠ none) :
    ∃ names : Location, names ≠ [] ∧ key = names.key ∧
      area.mergeRoot.text.length + 14 + key.length ≤ maxPathLength := by
  obtain ⟨entries, run, -, held⟩ := h.shows.walked
  obtain ⟨loc, walked⟩ := Disk.walked_of_walk run
  obtain ⟨content, e⟩ := Option.ne_none_iff_exists'.mp there
  obtain ⟨names, busy, found, covers, rfl⟩ := walked.get?_contentsOf.mp ((held key).trans e)
  have short := (walked.of_file busy found covers).2
  rw [Disk.pathBelow_path, Disk.Short, Location.length_path_append (by simp) busy,
    length_merged root] at short
  exact ⟨names, busy, rfl, by omega⟩

variable (hasRoots : area.HasRoots w.disk data temp) (standing : w.disk.IsDirectory w.disk.here)
variable (outside : Outside w.disk temp before) (outside' : Outside w.disk temp patch)
variable (direct : ∀ text, w.disk.get? (mergePlace temp) ≠ some (.link text))
variable (copy : Staged w.disk temp .content before b u₁)
variable (copy' : Staged u₁ temp .everything patch l u₂)
variable (merges : Merges ⟨Location.path (temp ++ [b]), Location.path (temp ++ [l]),
  some signature⟩ temp u₂ u₃ top n record base layer)

include hasRoots direct copy copy' merges in
theorem ready_of_merges : Ready w.disk area temp (mergePlace temp)
    ((w.disk.children (mergePlace temp)).map Prod.fst) ∧
      w.disk.get? (mergePlace temp ++ [Patch.mergedChild n]) = none := by
  have same : ∀ rest, u₂.get? (mergePlace temp ++ rest) = w.disk.get? (mergePlace temp ++ rest) :=
    fun rest => (copy'.get?_merged rest).trans (copy.get?_merged rest)
  have top := same []
  rw [List.append_nil] at top
  obtain ⟨d₁, rooted, new⟩ := merges.rooted
  obtain rfl : _ = mergePlace temp := rooted.direct (by rwa [top])
  refine ⟨⟨hasRoots.tempRoot, hasRoots.isTemp, ?_, fun name there => ?_, ?_⟩, ?_⟩
  · rw [Disk.IsDirectory, ← top]
    rcases rooted.dug.get? (mergePlace temp) with e | ⟨none, -⟩
    · exact .inl ⟨rfl, .inr (e ▸ rooted.isDirectory)⟩
    · exact .inl ⟨rfl, .inl none⟩
  · obtain ⟨node, found⟩ := Option.ne_none_iff_exists'.mp there
    exact List.mem_map.mpr ⟨(name, node), (Disk.mem_children name node).mpr found, rfl⟩
  · have short := merges.short
    rwa [Disk.Short, length_merged hasRoots.tempRoot] at short
  · rw [← same]
    exact rooted.dug.none new.free

include standing outside outside' copy copy' in
theorem copies_of_staged :
    (∃ origin entries, Copies w.disk .content before (temp ++ [b]) u₂ origin entries) ∧
      ∃ origin entries, Copies w.disk .everything patch (temp ++ [l]) u₂ origin entries := by
  have apart : Location.Disjoint (temp ++ [l]) (temp ++ [b]) :=
    Location.disjoint_of_free copy'.new.free copy.isDirectory (Location.not_child_prefix temp b)
  have standing₁ : u₁.IsDirectory u₁.here := by
    rw [copy.new.here]
    exact copy.new.within.isDirectory standing
  obtain ⟨origin, entries, copies⟩ := copy.copies outside standing
  obtain ⟨origin', entries', copies'⟩ :=
    copy'.copies (outside'.newAt standing copy.drawn copy.new) standing₁
  exact ⟨⟨origin, entries, copies.later fun names =>
      copy'.new.get? _ (apart.not_prefix_append names)⟩,
    ⟨origin', entries', copies'.before outside' standing copy.drawn copy.new⟩⟩

include hasRoots standing outside outside' direct copy copy' merges in
theorem exists_combine_of_merges : ∃ p c v m,
    ((inArea ⟨before, patch, some signature⟩ area).combine : Action ε _) w = .ok (.ok p, c) v ∧
      v.disk.contents p = .ok m ∧
      u₃.contents (Location.path (mergePlace temp ++ [Patch.mergedChild n])) = .ok m := by
  have isDir : u₂.IsDirectory (temp ++ [b]) := copy'.new.within.isDirectory copy.isDirectory
  have reach : u₂.Reaches (Location.path (temp ++ [b])) (temp ++ [b]) := Disk.reaches_path isDir rfl
  have reach' : u₂.Reaches (Location.path (temp ++ [l])) (temp ++ [l]) :=
    Disk.reaches_path copy'.isDirectory rfl
  obtain ⟨ready, free⟩ := ready_of_merges hasRoots direct copy copy' merges
  obtain ⟨⟨origin, entries, copies⟩, origin', entries', copies'⟩ :=
    copies_of_staged standing outside outside' copy copy'
  have held := Disk.contents_eq_ok_iff.mpr ⟨base, merges.walkBase, rfl⟩
  have held' := Disk.contents_eq_ok_iff.mpr ⟨layer, merges.walkLayer, rfl⟩
  obtain ⟨old, hb, same, -⟩ := copies.contents (.inl rfl) reach held
  obtain ⟨new, hp, same', linkless⟩ := copies'.contents (.inr rfl) reach' held'
  obtain ⟨-, -, -, files, -, -, -, -, holdsFiles, -⟩ := copy'.copied
  have recorded := copies'.record reach' (holdsFiles.linkless copy'.isDirectory) merges.admits.recorded
  have admits : CombineRequest.Admits ⟨before, patch, some signature⟩ w.disk record := by
    refine ⟨⟨?_, ?_⟩, ⟨?_, ?_⟩, recorded, merges.admits.anchored, ?_⟩
    · simpa [Path.isEmpty] using copies.walked.reaches.1
    · simpa [Path.isEmpty] using copies'.walked.reaches.1
    · exact Disk.hasEntry_iff.mpr ⟨origin, copies.walked.reaches, copies.walked.short⟩
    · exact Disk.hasEntry_iff.mpr ⟨origin', copies'.walked.reaches, copies'.walked.short⟩
    · obtain ⟨digest, count, found, declared⟩ := merges.admits.extended
      cases (Disk.digest_of_contents held).symm.trans found
      exact ⟨_, _, Disk.digest_of_contents (Disk.contents_eq_ok_iff.mpr ⟨old, hb, rfl⟩),
        same ▸ declared⟩
  have mergeable : Patch.Mergeable (w.disk.contentsOf old) (w.disk.contentsOf new) new
      record.removed := by
    rw [same, same']
    obtain ⟨-, accepted, spared, found, apart⟩ := merges.mergeable
    exact ⟨linkless, accepted, spared, found, apart⟩
  obtain ⟨n', v, merge, -, shows, -⟩ := ready.exists_merge free hb hp mergeable fun key there => by
    rw [same, same'] at there
    exact merges.fits hasRoots.tempRoot key there
  obtain ⟨c, v', run, like⟩ := combine_of_merged (ε := ε) (inArea ⟨before, patch, some signature⟩ area)
    rfl admits merge
  obtain ⟨m, content, sorted, get⟩ := shows.exists_contents
  rw [same, same'] at get
  exact ⟨_, c, v', m, run, like.disk ▸ content, merges.shows.contents sorted get⟩

end Direct
end Combiner

namespace Command

/-- A combine is clear of its trees. The directory of merged trees is not a link, and neither tree
holds a root of the work area. The output goes down only, leads nowhere yet, and its first missing
step lies neither in a tree nor in the temp hierarchy. -/
structure Clear (d : Disk) (data temp : Location) (before patch output : Path) : Prop where
  standing : d.IsDirectory d.here
  direct : ∀ text, d.get? (mergePlace temp) ≠ some (.link text)
  base : Staging.Outside d temp before
  layer : Staging.Outside d temp patch
  holds : ∀ tree, d.Reaches before tree ∨ d.Reaches patch tree → ¬ tree <+: data
  plain : Path.dotDot ∉ output.segments
  missing : ∀ loc, ¬ d.Reaches output loc
  apart : ∀ dir name rest,
    d.spotOf true output.text output.segments = .ok (.free dir name rest) →
      ¬ temp <+: dir ++ [name] ∧
        ∀ tree, d.Reaches before tree ∨ d.Reaches patch tree → ¬ tree <+: dir ++ [name]

/-- Both trees and the temp hierarchy are as they were, save that there may be a directory of merged
trees now. -/
structure Restored (d : Disk) (temp : Location) (before patch : Path) (d' : Disk) : Prop where
  trees : ∀ tree, d.Reaches before tree ∨ d.Reaches patch tree →
    ∀ loc, tree <+: loc → d'.get? loc = d.get? loc
  within : ∀ loc, temp <+: loc → loc ≠ mergePlace temp → d'.get? loc = d.get? loc
  merged : d'.get? (mergePlace temp) = d.get? (mergePlace temp) ∨
    d.get? (mergePlace temp) = none ∧ d'.IsDirectory (mergePlace temp)

/-- Both trees are as they were, and so is the temp hierarchy, save that there may be a directory of
merged trees now, and the roots of the work area with what lies above them. -/
structure Intact (d : Disk) (data temp : Location) (before patch : Path) (d' : Disk) : Prop where
  trees : ∀ tree, d.Reaches before tree ∨ d.Reaches patch tree →
    ∀ loc, tree <+: loc → d'.get? loc = d.get? loc
  within : ∀ loc, temp <+: loc → d'.get? loc = d.get? loc ∨
    d.get? loc = none ∧ d'.IsDirectory loc ∧ (loc = mergePlace temp ∨ loc <+: data ∨ loc <+: temp)

theorem Clear.off (h : Clear d data temp before patch output) {tree : Location}
    (reach : d.Reaches before tree ∨ d.Reaches patch tree) : ¬ tree <+: temp :=
  reach.elim (h.base.holds tree) (h.layer.holds tree)

theorem Restored.intact {storage : StorageSettings} {u : World}
    (h : Restored u.disk temp before patch d') (clear : Clear u.disk data temp before patch output)
    (founded : WorkArea.Founded storage w area data temp u)
    (plain : Path.dotDot ∉ storage.dataPath.steps) (plain' : Path.dotDot ∉ storage.tempDataPath.steps) :
    Intact w.disk data temp before patch d' := by
  have above := founded.above plain plain'
  refine ⟨fun tree reach loc le => ?_, fun loc le => ?_⟩
  · have later : u.disk.Reaches before tree ∨ u.disk.Reaches patch tree :=
      reach.imp (·.mono founded.dug.within) (·.mono founded.dug.within)
    rw [h.trees tree later loc le]
    by_contra new
    rcases above loc new with on | on
    · exact clear.holds tree later (le.trans on)
    · exact clear.off later (le.trans on)
  · have ended : d'.get? loc = u.disk.get? loc ∨
        loc = mergePlace temp ∧ u.disk.get? loc = none ∧ d'.IsDirectory loc := by
      by_cases e : loc = mergePlace temp
      · subst e
        exact h.merged.imp_right fun new => ⟨rfl, new⟩
      · exact .inl (h.within loc le e)
    rcases ended with same | ⟨e, free, isDir⟩
    · rw [Disk.IsDirectory, same]
      by_cases old : u.disk.get? loc = w.disk.get? loc
      · exact .inl old
      · obtain ⟨free, isDir⟩ := (founded.dug.get? loc).resolve_left old
        exact .inr ⟨free, isDir, .inr (above loc old)⟩
    · exact .inr ⟨founded.dug.none free, isDir, .inl e⟩

variable {loc brk dir : Location} {name : Name} {rest : List Bytes}

namespace Clear

theorem plain_steps (h : Clear d data temp before patch output) : Path.dotDot ∉ output.steps :=
  fun inside => h.plain (List.mem_of_mem_filter inside)

theorem disjoint (h : Clear d data temp before patch output) (isTemp : d.IsDirectory temp)
    (spot : d.spotOf true output.text output.segments = .ok (.free dir name rest)) :
    temp.Disjoint (dir ++ [name]) := by
  refine ⟨(h.apart dir name rest spot).1, fun le => ?_⟩
  obtain ⟨more, rfl⟩ := le
  rw [Disk.IsDirectory, Disk.get?_append_of_none (Disk.free_of_spotOf spot).2] at isTemp
  cases isTemp

theorem disjoint_tree (h : Clear d data temp before patch output) {tree : Location}
    (reach : d.Reaches before tree ∨ d.Reaches patch tree)
    (spot : d.spotOf true output.text output.segments = .ok (.free dir name rest)) :
    tree.Disjoint (dir ++ [name]) := by
  refine ⟨(h.apart dir name rest spot).2 tree reach, fun le => ?_⟩
  obtain ⟨more, rfl⟩ := le
  obtain ⟨node, found⟩ := reach.elim Disk.Reaches.exists Disk.Reaches.exists
  rw [Disk.get?_append_of_none (Disk.free_of_spotOf spot).2] at found
  cases found

section Missed

variable (h : Clear d data temp before patch output) (sub : d.Within d')
variable (misses : d.Misses d' output)

include h sub misses

theorem leadless (loc : Location) : ¬ d'.Reaches output loc := fun reach =>
  h.missing loc ((Disk.reaches_iff_of_misses sub h.standing misses).mp reach)

theorem spot_of_breaks (breaks : d'.Breaks output brk rest) : ∃ dir name rest,
    d.spotOf true output.text output.segments = .ok (.free dir name rest) ∧
      brk = dir ++ [name] := by
  obtain ⟨dir, name, beyond, spot, e, -⟩ := breaks.spotOf
  rw [Disk.spotOf_of_misses sub h.standing misses] at spot
  exact ⟨dir, name, beyond, spot, e⟩

end Missed

theorem restored (h : Clear d data temp before patch output) (isTemp : d.IsDirectory temp)
    (merged : d'.get? (mergePlace temp) = d.get? (mergePlace temp) ∨
      d.get? (mergePlace temp) = none ∧ d'.IsDirectory (mergePlace temp))
    (frame : ∀ loc ≠ mergePlace temp, (∀ dir name rest,
      d.spotOf true output.text output.segments = .ok (.free dir name rest) →
        ¬ dir ++ [name] <+: loc) → d'.get? loc = d.get? loc) :
    Restored d temp before patch d' := by
  refine ⟨fun tree reach loc le => ?_, fun loc le ne => ?_, merged⟩
  · by_cases e : loc = mergePlace temp
    · subst e
      refine merged.resolve_right fun new => ?_
      rcases List.prefix_concat_iff.mp le with rfl | above
      · obtain ⟨node, found⟩ := reach.elim Disk.Reaches.exists Disk.Reaches.exists
        have none : d.get? (temp ++ [mergeDir]) = none := new.1
        rw [none] at found
        cases found
      · exact h.off reach above
    · refine frame loc e fun dir name rest spot below => ?_
      obtain ⟨names, rfl⟩ := le
      exact (h.disjoint_tree reach spot).symm.not_prefix_append names below
  · refine frame loc ne fun dir name rest spot below => ?_
    obtain ⟨names, rfl⟩ := le
    exact (h.disjoint isTemp spot).symm.not_prefix_append names below

end Clear

section Gathered

variable {u₁ u₂ u₃ : Disk} {u : World} {b l : Name} {n : Nat} {record : PatchRecord}
variable {base layer : List TreeEntry}
variable (hasRoots : area.HasRoots w.disk data temp)
  (clear : Clear w.disk data temp before patch output)
variable (copy : Staging.Staged w.disk temp .content before b u₁)
variable (copy' : Staging.Staged u₁ temp .everything patch l u₂)
variable (merges : Combiner.Merges ⟨Location.path (temp ++ [b]), Location.path (temp ++ [l]),
  some signature⟩ temp u₂ u₃ top n record base layer)
variable (unstaged : Unstaged w.disk u₂ u₃ u.disk (temp ++ [b]) (temp ++ [l]))

include clear copy copy' merges unstaged

theorem kept_of_gathered {loc : Location} (ne : loc ≠ mergePlace temp)
    (away : ¬ mergePlace temp ++ [Patch.mergedChild n] <+: loc) :
    u.disk.get? loc = w.disk.get? loc := by
  obtain ⟨rfl, -⟩ := direct_of_gathered copy copy' merges unstaged clear.direct
  obtain ⟨d₁, rooted, new⟩ := merges.rooted
  exact unstaged.get?_eq ((new.get? loc away).trans (rooted.same loc ne))

include hasRoots

theorem missed_of_gathered : (∀ loc, ¬ u.disk.Reaches output loc) ∧
    ∀ brk rest, u.disk.Breaks output brk rest → ∃ dir name rest,
      w.disk.spotOf true output.text output.segments = .ok (.free dir name rest) ∧
        brk = dir ++ [name] := by
  have sub := (addsTree_of_gathered copy copy' merges unstaged).spares.within
  have misses : w.disk.Misses u.disk output := by
    intro dir name rest spot
    have apart := (clear.disjoint hasRoots.isTemp spot).1
    rw [kept_of_gathered clear copy copy' merges unstaged, (Disk.free_of_spotOf spot).2]
    · exact fun e => apart (e ▸ List.prefix_append temp [mergeDir])
    · rw [mergePlace, List.append_assoc]
      exact fun le => apart ((List.prefix_append _ _).trans le)
  exact ⟨clear.leadless sub misses, fun brk rest => clear.spot_of_breaks sub misses⟩

theorem avoids_of_gathered : w.disk.Avoids u.disk output := by
  intro goal puts
  obtain ⟨missing, missed⟩ := missed_of_gathered hasRoots clear copy copy' merges unstaged
  obtain ⟨brk, rest, breaks, names, rfl⟩ := puts.breaks clear.plain_steps missing
  obtain ⟨dir, name, rest, spot, rfl⟩ := missed brk rest breaks
  exact Disk.get?_append_of_none (Disk.free_of_spotOf spot).2

theorem apart_of_gathered {rest : List Bytes} (breaks : u.disk.Breaks output brk rest) :
    brk.Disjoint (mergePlace temp ++ [Patch.mergedChild n]) := by
  obtain ⟨dir, name, rest, spot, rfl⟩ :=
    (missed_of_gathered hasRoots clear copy copy' merges unstaged).2 brk rest breaks
  have apart := (clear.disjoint hasRoots.isTemp spot).append [mergeDir, Patch.mergedChild n]
  rw [mergePlace, List.append_assoc]
  exact apart.symm

theorem restored_of_gathered (ne : output.text ≠ []) : Restored w.disk temp before patch
    (after (deliver area (Location.path (mergePlace temp ++ [Patch.mergedChild n])) output)
      u).disk := by
  have adds := addsTree_of_gathered copy copy' merges unstaged
  obtain ⟨rfl, isDir⟩ := direct_of_gathered copy copy' merges unstaged clear.direct
  obtain ⟨missing, missed⟩ := missed_of_gathered hasRoots clear copy copy' merges unstaged
  have sub := adds.spares.within
  have isTemp := sub.isDirectory hasRoots.isTemp
  have freed : area.Frees (mergePlace temp ++ [Patch.mergedChild n]) := by
    have free := adds.names.free
    have short := merges.short
    rw [mergePlace, List.append_assoc] at free short ⊢
    exact hasRoots.frees free short (by simp [mergePlace])
  have ended : ∀ loc, (∀ dir name rest,
      w.disk.spotOf true output.text output.segments = .ok (.free dir name rest) →
        ¬ dir ++ [name] <+: loc) →
      (after (deliver area (Location.path (mergePlace temp ++ [Patch.mergedChild n])) output)
        u).disk.get? loc =
          if mergePlace temp ++ [Patch.mergedChild n] <+: loc then none else u.disk.get? loc := by
    refine fun loc off => deliver_frame hasRoots.protects_merge freed isTemp adds ne
      (avoids_of_gathered hasRoots clear copy copy' merges unstaged) clear.plain_steps missing
      (fun brk rest => apart_of_gathered hasRoots clear copy copy' merges unstaged)
      fun brk rest breaks => ?_
    obtain ⟨dir, name, rest, spot, rfl⟩ := missed brk rest breaks
    exact off dir name rest spot
  refine clear.restored hasRoots.isTemp ?_ fun loc away off => ?_
  · have top := ended (mergePlace temp) fun dir name rest spot =>
      (clear.disjoint hasRoots.isTemp spot).symm.not_prefix_append [mergeDir]
    rw [if_neg (Location.not_child_prefix _ _)] at top
    rw [Disk.IsDirectory, top]
    have there := Disk.isDirectory_of_child isDir
    cases held : w.disk.get? (mergePlace temp) with
    | none => exact .inr ⟨rfl, there⟩
    | some node => exact .inl (sub.2 _ _ held)
  · rw [ended loc off]
    split
    · rename_i below
      obtain ⟨names, rfl⟩ := below
      exact (Disk.get?_append_of_none adds.names.free).symm
    · rename_i below
      exact kept_of_gathered clear copy copy' merges unstaged away below

theorem refines_of_gathered {ε : Type} (ne : output.text ≠ []) {text : String}
    (run : deliver area (Location.path (mergePlace temp ++ [Patch.mergedChild n])) output u =
      .ok text v) :
    ∃ p c v' m, ((Combiner.inArea ⟨before, patch, some signature⟩ area).combine : Action ε _) w =
        .ok (.ok p, c) v' ∧
      v'.disk.contents p = .ok m ∧ v.disk.contents output = .ok m ∧
        text = told output (Digest.ofContents m) := by
  have adds := addsTree_of_gathered copy copy' merges unstaged
  obtain ⟨rfl, isDir⟩ := direct_of_gathered copy copy' merges unstaged clear.direct
  have isTemp : u.disk.IsDirectory temp := adds.spares.within.isDirectory hasRoots.isTemp
  have off : ¬ mergePlace temp ++ [Patch.mergedChild n] <+: temp :=
    adds.names.off (by rw [show w.disk.get? temp = _ from hasRoots.isTemp]; nofun)
  obtain ⟨p, c, v', m, combined, held, merged⟩ := Combiner.exists_combine_of_merges (ε := ε) hasRoots
    clear.standing clear.base clear.layer clear.direct copy copy' merges
  obtain ⟨goal, m', reach, puts, held', rfl, files⟩ := (deliver_ends hasRoots.protects_merge isTemp off
    adds ne (avoids_of_gathered hasRoots clear copy copy' merges unstaged)).2 text v run
  obtain ⟨brk, rest, breaks, names, rfl⟩ := puts.breaks clear.plain_steps
    (missed_of_gathered hasRoots clear copy copy' merges unstaged).1
  have apart := apart_of_gathered hasRoots clear copy copy' merges unstaged breaks
  have merged' := Disk.contents_congr merges.shows.reaches (Disk.reaches_path isDir rfl)
    (same_of_gathered copy copy' merges unstaged
      (by rw [show u.disk.get? _ = _ from isDir]; nofun)) merged
  cases Disk.contents_eq_of_files reach (Disk.reaches_path isDir rfl) held' merged'
    fun below proper content _ => files (apart.append names) below proper content
  exact ⟨p, c, v', m, combined, held, held', rfl⟩

end Gathered

theorem halves_ends {ε : Type} (hasRoots : area.HasRoots w.disk data temp)
    (clear : Clear w.disk data temp before patch output) (ne : output.text ≠ []) :
    Restored w.disk temp before patch (after (gather area before patch signature >>= fun merged =>
      deliver area merged output) w).disk ∧
    ∀ text v, (gather area before patch signature >>= fun merged =>
      deliver area merged output) w = .ok text v → ∃ p c v' m,
        ((Combiner.inArea ⟨before, patch, some signature⟩ area).combine : Action ε _) w =
            .ok (.ok p, c) v' ∧
          v'.disk.contents p = .ok m ∧ v.disk.contents output = .ok m ∧
            text = told output (Digest.ofContents m) := by
  have isTemp := hasRoots.isTemp
  rcases gather_ends hasRoots before patch signature with
    ⟨e, v, failed, dug, frame⟩ | ⟨b, l, top, n, record, base, layer, u₁, u₂, u₃, u, copy, copy',
      merges, unstaged, gathered⟩
  · have ended : (gather area before patch signature >>= fun merged =>
        deliver area merged output) w = _ := bind_of_error failed
    rw [after_of_error ended]
    refine ⟨clear.restored isTemp (dug.get? _) fun loc ne _ => frame loc ne, fun text v' run => ?_⟩
    cases ended.symm.trans run
  obtain ⟨rfl, -⟩ := direct_of_gathered copy copy' merges unstaged clear.direct
  have ended : (gather area before patch signature >>= fun merged =>
      deliver area merged output) w = _ := bind_of_ok gathered
  refine ⟨?_, fun text v run =>
    refines_of_gathered hasRoots clear copy copy' merges unstaged ne (ended.symm.trans run)⟩
  unfold after
  rw [ended]
  exact restored_of_gathered hasRoots clear copy copy' merges unstaged ne

theorem clear_at_top {u : World}
    (founded : WorkArea.Founded atTop.storage bystander area data temp u) :
    Clear u.disk data temp ⟨[47, 97]⟩ ⟨[47, 112]⟩ ⟨[47, 110, 47, 111]⟩ := by
  have made : after (WorkArea.ofSettings atTop.storage) bystander = u := after_of_ok founded.run
  obtain ⟨rfl, rfl⟩ : data = [⟨[100], by decide⟩] ∧ temp = [⟨[116], by decide⟩] := by
    have roots : ((WorkArea.ofSettings atTop.storage).run' bystander) =
        some ⟨Location.path [⟨[100], by decide⟩], Location.path [⟨[116], by decide⟩]⟩ := by
      decide +kernel
    rw [run'_of_ok founded.run, Option.some.injEq] at roots
    have dataRoot := founded.hasRoots.dataRoot
    have tempRoot := founded.hasRoots.tempRoot
    rw [roots] at dataRoot tempRoot
    exact ⟨Location.path_injective dataRoot.symm, Location.path_injective tempRoot.symm⟩
  have merged : u.disk.get? (mergePlace [⟨[116], by decide⟩]) = none := by
    rw [← made]
    decide +kernel
  have spot : u.disk.spotOf true [47, 97] [[], [97]] = .ok (.entry [⟨[97], by decide⟩]) := by
    rw [← made]
    rfl
  have spot' : u.disk.spotOf true [47, 112] [[], [112]] = .ok (.entry [⟨[112], by decide⟩]) := by
    rw [← made]
    rfl
  have missed : u.disk.spotOf true [47, 110, 47, 111] [[], [110], [111]] =
      .ok (.free [] ⟨[110], by decide⟩ [[111]]) := by
    rw [← made]
    rfl
  have places : ∀ tree, u.disk.Reaches ⟨[47, 97]⟩ tree ∨ u.disk.Reaches ⟨[47, 112]⟩ tree →
      tree = [⟨[97], by decide⟩] ∨ tree = [⟨[112], by decide⟩] := by
    rintro tree (reach | reach)
    · cases spot.symm.trans (Disk.reaches_iff_spotOf.mp reach).2.2
      exact .inl rfl
    · cases spot'.symm.trans (Disk.reaches_iff_spotOf.mp reach).2.2
      exact .inr rfl
  refine ⟨?_, fun text found => ?_, .of_entry spot (by decide), .of_entry spot' (by decide),
    fun tree reach => ?_, by decide, fun loc reach => ?_, fun dir name rest free => ?_⟩
  · rw [founded.dug.here]
    exact Disk.isDirectory_nil _
  · cases merged.symm.trans found
  · rcases places tree reach with rfl | rfl <;> decide
  · cases missed.symm.trans (Disk.reaches_iff_spotOf.mp reach).2.2
  · cases missed.symm.trans free
    refine ⟨by decide, fun tree reach => ?_⟩
    rcases places tree reach with rfl | rfl <;> decide

/-- Settings with the work area in `/d` and `/t`, where `/d` is spelled `/a/n/../../d`. -/
def throughTree : NodeSettings :=
  { atTop with storage :=
      ⟨⟨[47, 97, 47, 110, 47, 46, 46, 47, 46, 46, 47, 100]⟩, ⟨[47, 116]⟩⟩ }

/-- A patch `/p` of the tree without files, with nothing in it but its record. -/
def patchOfNothing : World := .holding [
  ([47, 112], .directory), ([47, 112, 47, 46, 112, 97, 116, 99, 104], .directory),
  ([47, 112, 47, 46, 112, 97, 116, 99, 104, 47, 109, 101, 116, 97, 100, 97, 116, 97, 46, 106, 115,
    111, 110], .file (Bytes.ofString ("\x7b\"version\":1,\"previous_signature\":\"" ++
      (Signature.uniform 1).text ++ "\",\"previous_hash\":" ++
      "\"1520da5ff54f02f296f1864822f9ad244b9ffe8fed38acdc18366b195ae0f5b3\"\x7d")))]

/-- The missing path `/t/base-aaaaaa`, the first that is drawn for a base in `/t`. -/
def drawn : Path := ⟨[47, 116, 47, 98, 97, 115, 101, 45, 97, 97, 97, 97, 97, 97]⟩

end Command
end LayeredTree
