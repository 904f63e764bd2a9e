import LayeredTree.Proofs.Disk.Reach
import LayeredTree.Proofs.Tree.KeyMaps
import LayeredTree.Proofs.Tree.Keys

set_option autoImplicit false

namespace LayeredTree

variable {d : Disk} {scope : WalkScope} {root : Path} {loc names : Location} {node : Node}
variable {entry : TreeEntry} {entries : List TreeEntry} {key : Key} {path : Path} {size : Nat}

namespace TreeEntry

theorem mem_place {other : TreeEntry} : other ∈ entry.place entries ↔
    other = entry ∨ other ∈ entries := by
  induction entries with
  | nil => simp [place]
  | cons first rest ih =>
    rw [place]
    split
    · simp
    · rw [List.mem_cons, ih, List.mem_cons]
      tauto

@[simp] theorem mem_sorted : entry ∈ sorted entries ↔ entry ∈ entries := by
  induction entries with
  | nil => rfl
  | cons first rest ih =>
    rw [sorted, List.foldr_cons, mem_place, List.mem_cons]
    exact or_congr Iff.rfl ih

/-- The addresses stand in strict byte order. -/
def InOrder (entries : List TreeEntry) : Prop :=
  entries.Pairwise fun a b => Bytes.before a.key b.key = true

theorem inOrder_place (new : ∀ other ∈ entries, other.key ≠ entry.key) (h : InOrder entries) :
    InOrder (entry.place entries) := by
  induction entries with
  | nil => exact List.pairwise_singleton _ _
  | cons first rest ih =>
    obtain ⟨least, tail⟩ := List.pairwise_cons.mp h
    have apart := new first List.mem_cons_self
    rw [place]
    split
    · rename_i le
      rw [Bytes.atMost, Bool.not_eq_true'] at le
      have less := Bytes.before_of_ne apart.symm le
      refine List.pairwise_cons.mpr ⟨fun other ho => ?_, h⟩
      rcases List.mem_cons.mp ho with rfl | ho
      · exact less
      · exact Bytes.before_trans less (least other ho)
    · rename_i gt
      have less : Bytes.before first.key entry.key = true := by simpa [Bytes.atMost] using gt
      refine List.pairwise_cons.mpr ⟨fun other ho => ?_, ?_⟩
      · rcases mem_place.mp ho with rfl | ho
        · exact less
        · exact least other ho
      · exact ih (fun other ho => new other (List.mem_cons_of_mem _ ho)) tail

theorem inOrder_sorted (h : (entries.map TreeEntry.key).Nodup) : InOrder (sorted entries) := by
  induction entries with
  | nil => exact List.Pairwise.nil
  | cons first rest ih =>
    obtain ⟨new, tail⟩ := List.nodup_cons.mp h
    refine inOrder_place (fun other ho e => ?_) (ih tail)
    exact new (e ▸ List.mem_map_of_mem (mem_sorted.mp ho))

end TreeEntry

namespace Disk

/-- All names on the way are UTF-8, so that the location has an address. -/
def Spelled (names : Location) : Prop := ∀ name ∈ names, (Bytes.toString? name.bytes).isSome

/-- The scope comes to the entry below the root. -/
def Covers (scope : WalkScope) (names : Location) (node : Node) : Prop :=
  scope.reaches names.length = true ∧ scope.excludes names node = false

theorem mem_visited : (names, node) ∈ d.visited scope loc ↔
    names ≠ [] ∧ d.get? (loc ++ names) = some node ∧ Covers scope names node := by
  rw [visited, List.mem_filter, mem_below, Covers, Bool.and_eq_true, Bool.not_eq_true', and_assoc]

theorem keyBelow_eq_ok_iff : keyBelow root names = .ok key ↔
    Spelled names ∧ key = names.key := by
  unfold keyBelow Spelled
  rw [← List.all_eq_true]
  cases names.all fun name => (Bytes.toString? name.bytes).isSome with
  | false => exact ⟨nofun, nofun⟩
  | true =>
    rw [if_pos rfl, Except.ok.injEq, eq_comm]
    exact ⟨fun e => ⟨rfl, e⟩, fun e => e.2⟩

theorem report_file_eq_ok_iff {content : Bytes} {answer : Option TreeEntry} :
    report scope root names (.file content) = .ok answer ↔
      Spelled names ∧ Short (pathBelow root names) ∧
        answer = some (.file names.key (pathBelow root names) content.length) := by
  unfold report
  cases hk : keyBelow root names with
  | error e =>
    refine ⟨nofun, fun h => ?_⟩
    rw [keyBelow_eq_ok_iff.mpr ⟨h.1, rfl⟩] at hk
    cases hk
  | ok key =>
    obtain ⟨spelled, rfl⟩ := keyBelow_eq_ok_iff.mp hk
    change (if maxPathLength < (pathBelow root names).text.length then _ else _) = _ ↔ _
    by_cases long : maxPathLength < (pathBelow root names).text.length
    · rw [if_pos long]
      exact ⟨nofun, fun h => absurd h.2.1 (Nat.not_le.mpr long)⟩
    · rw [if_neg long]
      constructor
      · intro h
        cases h
        exact ⟨spelled, Nat.not_lt.mp long, rfl⟩
      · rintro ⟨-, -, rfl⟩
        rfl

theorem report_link_eq_ok_iff {target : Bytes} {answer : Option TreeEntry} :
    report scope root names (.link target) = .ok answer ↔
      Spelled names ∧ answer = some (.link names.key (pathBelow root names)) := by
  unfold report
  cases hk : keyBelow root names with
  | error e =>
    refine ⟨nofun, fun h => ?_⟩
    rw [keyBelow_eq_ok_iff.mpr ⟨h.1, rfl⟩] at hk
    cases hk
  | ok key =>
    obtain ⟨spelled, rfl⟩ := keyBelow_eq_ok_iff.mp hk
    constructor
    · intro h
      cases h
      exact ⟨spelled, rfl⟩
    · rintro ⟨-, rfl⟩
      rfl

theorem report_eq_some {answer : TreeEntry} (h : report scope root names node = .ok (some answer)) :
    answer.key = names.key ∧ ((∃ content, node = .file content) ∨ ∃ target, node = .link target) := by
  cases node with
  | file content =>
    obtain ⟨-, -, e⟩ := report_file_eq_ok_iff.mp h
    cases e
    exact ⟨rfl, .inl ⟨content, rfl⟩⟩
  | link target =>
    obtain ⟨-, e⟩ := report_link_eq_ok_iff.mp h
    cases e
    exact ⟨rfl, .inr ⟨target, rfl⟩⟩
  | directory =>
    unfold report at h
    dsimp only at h
    split at h
    · cases h
    · cases h
  | other =>
    unfold report at h
    cases hk : keyBelow root names with
    | error e =>
      rw [hk] at h
      cases h
    | ok key =>
      rw [hk] at h
      cases h

private theorem forall₂_of_mapM {α β ε : Type} {f : α → Except ε β} {l : List α} {r : List β} :
    l.mapM f = .ok r ↔ List.Forall₂ (fun a b => f a = .ok b) l r := by
  induction l generalizing r with
  | nil =>
    rw [List.mapM_nil]
    constructor
    · intro h
      cases h
      exact .nil
    · intro h
      cases h
      rfl
  | cons a l ih =>
    rw [List.mapM_cons]
    cases ha : f a with
    | error e =>
      refine ⟨nofun, fun h => ?_⟩
      cases h with
      | cons h _ =>
        rw [ha] at h
        cases h
    | ok b =>
      cases hl : l.mapM f with
      | error e =>
        refine ⟨nofun, fun h => ?_⟩
        cases h with
        | cons _ h =>
          rw [ih.mpr h] at hl
          cases hl
      | ok bs =>
        constructor
        · intro h
          cases h
          exact .cons ha (ih.mp hl)
        · intro h
          cases h with
          | cons h hs =>
            rw [ha] at h
            cases h
            rw [ih.mpr hs] at hl
            cases hl
            rfl

private theorem exists_of_forall₂ {α β : Type} {R : α → β → Prop} {l : List α} {r : List β}
    (h : List.Forall₂ R l r) {a : α} (ha : a ∈ l) : ∃ b, R a b := by
  induction h with
  | nil => cases ha
  | cons first _ ih =>
    rcases List.mem_cons.mp ha with rfl | ha
    · exact ⟨_, first⟩
    · exact ih ha

private theorem mem_reported {l : List (Location × Node)} {r : List (Option TreeEntry)}
    (h : List.Forall₂ (fun p b => report scope root p.1 p.2 = .ok b) l r) :
    entry ∈ r.filterMap id ↔
      ∃ names node, (names, node) ∈ l ∧ report scope root names node = .ok (some entry) := by
  induction h with
  | nil => simp
  | @cons p b l r hp _ ih =>
    obtain ⟨names, node⟩ := p
    cases b with
    | none =>
      rw [List.filterMap_cons_none rfl, ih]
      constructor
      · rintro ⟨names', node', hm, hr⟩
        exact ⟨names', node', List.mem_cons_of_mem _ hm, hr⟩
      · rintro ⟨names', node', hm, hr⟩
        rcases List.mem_cons.mp hm with e | hm
        · cases e
          rw [hp] at hr
          cases hr
        · exact ⟨names', node', hm, hr⟩
    | some first =>
      rw [List.filterMap_cons_some (f := id) (b := first) rfl, List.mem_cons, ih]
      constructor
      · rintro (rfl | ⟨names', node', hm, hr⟩)
        · exact ⟨names, node, List.mem_cons_self, hp⟩
        · exact ⟨names', node', List.mem_cons_of_mem _ hm, hr⟩
      · rintro ⟨names', node', hm, hr⟩
        rcases List.mem_cons.mp hm with e | hm
        · cases e
          rw [hp] at hr
          cases hr
          exact .inl rfl
        · exact .inr ⟨names', node', hm, hr⟩

private theorem nodup_reported {l : List (Location × Node)} {r : List (Option TreeEntry)}
    (h : List.Forall₂ (fun p b => report scope root p.1 p.2 = .ok b) l r)
    (distinct : (l.map Prod.fst).Nodup) : ((r.filterMap id).map TreeEntry.key).Nodup := by
  induction h with
  | nil => exact List.nodup_nil
  | @cons p b l r hp hs ih =>
    obtain ⟨names, node⟩ := p
    obtain ⟨new, rest⟩ := List.nodup_cons.mp distinct
    cases b with
    | none =>
      rw [List.filterMap_cons_none rfl]
      exact ih rest
    | some first =>
      rw [List.filterMap_cons_some (f := id) (b := first) rfl, List.map_cons, List.nodup_cons]
      refine ⟨fun hm => new ?_, ih rest⟩
      obtain ⟨other, ho, e⟩ := List.mem_map.mp hm
      obtain ⟨names', node', hm, hr⟩ := (mem_reported hs).mp ho
      have same := (report_eq_some hr).1.symm.trans (e.trans (report_eq_some hp).1)
      rw [← Location.key_injective same]
      exact List.mem_map_of_mem (f := Prod.fst) hm

/-- The entries are those of a walk over the tree at the location. -/
structure Walked (d : Disk) (scope : WalkScope) (root : Path) (loc : Location)
    (entries : List TreeEntry) : Prop where
  reaches : d.Reaches root loc
  short : Short root
  isDirectory : d.IsDirectory loc
  mem_iff : ∀ entry, entry ∈ entries ↔ ∃ names node, names ≠ [] ∧
    d.get? (loc ++ names) = some node ∧ Covers scope names node ∧
      report scope root names node = .ok (some entry)
  reported : ∀ names node, names ≠ [] → d.get? (loc ++ names) = some node →
    Covers scope names node → ∃ answer, report scope root names node = .ok answer
  inOrder : TreeEntry.InOrder entries

theorem walked_of_walk (h : d.walk scope root = .ok entries) :
    ∃ loc, d.Walked scope root loc entries := by
  unfold walk at h
  split at h
  · rename_i loc he
    obtain ⟨reaches, short, isDirectory⟩ := entryAt_eq_ok_iff.mp he
    cases hm : (d.visited scope loc).mapM fun p => report scope root p.1 p.2 with
    | error e =>
      rw [hm] at h
      cases h
    | ok reported =>
      rw [hm] at h
      cases h
      have each := forall₂_of_mapM.mp hm
      refine ⟨loc, reaches, short, isDirectory, fun entry => ?_, fun names node ne hg covers => ?_,
        ?_⟩
      · rw [TreeEntry.mem_sorted, mem_reported each]
        constructor
        · rintro ⟨names, node, hv, hr⟩
          obtain ⟨ne, hg, covers⟩ := mem_visited.mp hv
          exact ⟨names, node, ne, hg, covers, hr⟩
        · rintro ⟨names, node, ne, hg, covers, hr⟩
          exact ⟨names, node, mem_visited.mpr ⟨ne, hg, covers⟩, hr⟩
      · exact exists_of_forall₂ each (mem_visited.mpr ⟨ne, hg, covers⟩)
      · refine TreeEntry.inOrder_sorted (nodup_reported each ?_)
        exact (nodup_below loc).sublist ((List.filter_sublist).map _)
  · cases h

theorem exists_walk (reaches : d.Reaches root loc) (short : Short root)
    (isDirectory : d.IsDirectory loc) (reported : ∀ names node, names ≠ [] →
      d.get? (loc ++ names) = some node → Covers scope names node →
        ∃ answer, report scope root names node = .ok answer) :
    ∃ entries, d.walk scope root = .ok entries := by
  have all : ∃ r, (d.visited scope loc).mapM (fun p => report scope root p.1 p.2) = .ok r := by
    have each : ∀ p ∈ d.visited scope loc, ∃ b, report scope root p.1 p.2 = .ok b := by
      rintro ⟨names, node⟩ hp
      obtain ⟨ne, hg, covers⟩ := mem_visited.mp hp
      exact reported names node ne hg covers
    generalize d.visited scope loc = l at each ⊢
    induction l with
    | nil => exact ⟨[], rfl⟩
    | cons p l ih =>
      obtain ⟨b, hb⟩ := each p List.mem_cons_self
      obtain ⟨bs, hbs⟩ := ih fun q hq => each q (List.mem_cons_of_mem _ hq)
      exact ⟨b :: bs, forall₂_of_mapM.mpr (.cons hb (forall₂_of_mapM.mp hbs))⟩
  obtain ⟨r, hr⟩ := all
  unfold walk
  rw [entryAt_eq_ok_iff.mpr ⟨reaches, short, isDirectory⟩]
  refine ⟨TreeEntry.sorted (r.filterMap id), ?_⟩
  dsimp only
  rw [hr]
  rfl

namespace Walked

variable {d : Disk} {scope : WalkScope} {root : Path} {loc : Location} {entries : List TreeEntry}
variable {key : Key} {path : Path} {size : Nat}

theorem mem_file_iff (h : d.Walked scope root loc entries) : .file key path size ∈ entries ↔
    ∃ (names : Location) (content : Bytes), names ≠ [] ∧ d.get? (loc ++ names) = some (.file content) ∧
      Covers scope names (.file content) ∧ key = names.key ∧ path = pathBelow root names ∧
        size = content.length := by
  rw [h.mem_iff]
  constructor
  · rintro ⟨names, node, ne, hg, covers, hr⟩
    obtain ⟨-, ⟨content, rfl⟩ | ⟨target, rfl⟩⟩ := report_eq_some hr
    · obtain ⟨-, -, e⟩ := report_file_eq_ok_iff.mp hr
      cases e
      exact ⟨names, content, ne, hg, covers, rfl, rfl, rfl⟩
    · obtain ⟨-, e⟩ := report_link_eq_ok_iff.mp hr
      cases e
  · rintro ⟨names, content, ne, hg, covers, rfl, rfl, rfl⟩
    obtain ⟨answer, hr⟩ := h.reported names _ ne hg covers
    obtain ⟨-, -, rfl⟩ := report_file_eq_ok_iff.mp hr
    exact ⟨names, _, ne, hg, covers, hr⟩

theorem mem_link_iff (h : d.Walked scope root loc entries) : .link key path ∈ entries ↔
    ∃ (names : Location) (target : Bytes), names ≠ [] ∧ d.get? (loc ++ names) = some (.link target) ∧
      Covers scope names (.link target) ∧ key = names.key ∧ path = pathBelow root names := by
  rw [h.mem_iff]
  constructor
  · rintro ⟨names, node, ne, hg, covers, hr⟩
    obtain ⟨-, ⟨content, rfl⟩ | ⟨target, rfl⟩⟩ := report_eq_some hr
    · obtain ⟨-, -, e⟩ := report_file_eq_ok_iff.mp hr
      cases e
    · obtain ⟨-, e⟩ := report_link_eq_ok_iff.mp hr
      cases e
      exact ⟨names, target, ne, hg, covers, rfl, rfl⟩
  · rintro ⟨names, target, ne, hg, covers, rfl, rfl⟩
    obtain ⟨answer, hr⟩ := h.reported names _ ne hg covers
    obtain ⟨-, rfl⟩ := report_link_eq_ok_iff.mp hr
    exact ⟨names, _, ne, hg, covers, hr⟩

theorem of_file (h : d.Walked scope root loc entries) {names : Location} {content : Bytes}
    (ne : names ≠ []) (hg : d.get? (loc ++ names) = some (.file content))
    (covers : Covers scope names (.file content)) :
    Spelled names ∧ Short (pathBelow root names) := by
  obtain ⟨answer, hr⟩ := h.reported names _ ne hg covers
  obtain ⟨spelled, short, -⟩ := report_file_eq_ok_iff.mp hr
  exact ⟨spelled, short⟩

end Walked

theorem Reaches.below {names : Location} {node : Node} (h : d.Reaches root loc)
    (hn : d.get? (loc ++ names) = some node) (plain : node.isLink = false) :
    d.Reaches (pathBelow root names) (loc ++ names) := by
  induction names using List.reverseRecOn generalizing node with
  | nil => simpa using h
  | append_singleton names name ih =>
    rw [← List.append_assoc] at hn ⊢
    rw [pathBelow_concat]
    exact (ih (isDirectory_of_child hn) rfl).child hn plain

end Disk
end LayeredTree
