import LayeredTree.Disk.Fault

/-!
A disk: entries at physical locations. Every entry sits in a directory, and a location holds at
most one entry; both facts belong to the type. The four changes a disk knows are planting a new
entry, refilling a file, uprooting an entry with all below it, and grafting it elsewhere.
-/

set_option autoImplicit false

namespace LayeredTree

def maxNameLength : Nat := 255

/-- The longest path text the operating system reads. -/
def maxPathLength : Nat := 4095

/-- A name a directory can hold. -/
def IsName (b : Bytes) : Prop :=
  Path.isIdle b = false ∧ b ≠ Path.dotDot ∧ slash ∉ b ∧ (0 : UInt8) ∉ b ∧ b.length ≤ maxNameLength

instance (b : Bytes) : Decidable (IsName b) := by unfold IsName; infer_instance

structure Name where
  bytes : Bytes
  isName : IsName bytes
deriving DecidableEq

def Name.ofBytes? (b : Bytes) : Option Name := if h : IsName b then some ⟨b, h⟩ else none

/-- Where an entry sits: the names from the root down to it, with no link among them. -/
abbrev Location := List Name

def Location.path (loc : Location) : Path :=
  if loc.isEmpty then ⟨[slash]⟩ else ⟨loc.flatMap fun name => slash :: name.bytes⟩

/-- What a location can hold. A link holds the text it points to. -/
inductive Node
  | file (content : Bytes)
  | directory
  | link (target : Bytes)
  | other
deriving Repr, DecidableEq

def Node.isDirectory : Node → Bool
  | .directory => true
  | _ => false

def Node.isFile : Node → Bool
  | .file _ => true
  | _ => false

/-- A disk as seen from a working directory. The root is a directory without being listed. -/
structure Disk where
  here : Location
  nodes : List (Location × Node)
  distinct : (nodes.map Prod.fst).Nodup
  rooted : ∀ loc node, (loc, node) ∈ nodes →
    loc ≠ [] ∧ (loc.dropLast = [] ∨ (loc.dropLast, Node.directory) ∈ nodes)

namespace Disk

def empty : Disk := ⟨[], [], List.nodup_nil, by simp⟩

instance : Inhabited Disk := ⟨empty⟩

def get? (d : Disk) (loc : Location) : Option Node :=
  if loc = [] then some .directory else d.nodes.lookup loc

def IsDirectory (d : Disk) (loc : Location) : Prop := d.get? loc = some .directory

instance (d : Disk) (loc : Location) : Decidable (d.IsDirectory loc) := by
  unfold IsDirectory; infer_instance

theorem get?_nil (d : Disk) : d.get? [] = some .directory := by simp [get?]

private theorem mem_of_lookup {α β : Type} [BEq α] [LawfulBEq α] {l : List (α × β)} {a : α} {b : β}
    (h : l.lookup a = some b) : (a, b) ∈ l := by
  induction l with
  | nil => simp at h
  | cons p l ih =>
    obtain ⟨k, v⟩ := p
    by_cases e : a = k
    · subst e; simp at h; simp [h]
    · have : (a == k) = false := by simpa using e
      rw [List.lookup_cons, this] at h
      exact List.mem_cons_of_mem _ (ih h)

private theorem lookup_of_mem {α β : Type} [BEq α] [LawfulBEq α] {l : List (α × β)} {a : α} {b : β}
    (distinct : (l.map Prod.fst).Nodup) (h : (a, b) ∈ l) : l.lookup a = some b := by
  induction l with
  | nil => simp at h
  | cons p l ih =>
    obtain ⟨k, v⟩ := p
    simp only [List.map_cons, List.nodup_cons] at distinct
    rcases List.mem_cons.1 h with e | inside
    · cases e; simp
    · have ne : (a == k) = false := by
        apply beq_false_of_ne
        rintro rfl
        exact distinct.1 (List.mem_map.2 ⟨(_, b), inside, rfl⟩)
      rw [List.lookup_cons, ne]
      exact ih distinct.2 inside

theorem get?_eq_some_iff (d : Disk) {loc : Location} (ne : loc ≠ []) (node : Node) :
    d.get? loc = some node ↔ (loc, node) ∈ d.nodes := by
  rw [get?, if_neg ne]
  exact ⟨mem_of_lookup, lookup_of_mem d.distinct⟩

theorem get?_eq_none_iff (d : Disk) {loc : Location} (ne : loc ≠ []) :
    d.get? loc = none ↔ loc ∉ d.nodes.map Prod.fst := by
  constructor
  · intro h hm
    obtain ⟨⟨k, n⟩, hp, rfl⟩ := List.mem_map.1 hm
    rw [(d.get?_eq_some_iff ne n).2 hp] at h
    cases h
  · intro h
    cases e : d.get? loc with
    | none => rfl
    | some n => exact absurd (List.mem_map.2 ⟨(loc, n), (d.get?_eq_some_iff ne n).1 e, rfl⟩) h

theorem isDirectory_dropLast (d : Disk) {loc : Location} {node : Node}
    (h : (loc, node) ∈ d.nodes) : d.IsDirectory loc.dropLast := by
  rcases (d.rooted loc node h).2 with e | e
  · rw [e]; exact d.get?_nil
  · by_cases ne : loc.dropLast = []
    · rw [ne]; exact d.get?_nil
    · exact (d.get?_eq_some_iff ne _).2 e

theorem mem_of_isPrefix (d : Disk) {above loc : Location} {node : Node} (ne : above ≠ [])
    (h : (loc, node) ∈ d.nodes) (le : above <+: loc) : above ∈ d.nodes.map Prod.fst := by
  obtain ⟨rest, rfl⟩ := le
  induction hr : rest.length generalizing rest node with
  | zero =>
    have : rest = [] := List.length_eq_zero_iff.1 hr
    subst this
    exact List.mem_map.2 ⟨_, h, by simp⟩
  | succ n ih =>
    have rne : rest ≠ [] := by intro e; simp [e] at hr
    have up : (above ++ rest).dropLast = above ++ rest.dropLast := by
      rw [List.dropLast_append_of_ne_nil rne]
    rcases (d.rooted _ node h).2 with e | e
    · rw [up] at e
      exact absurd (List.append_eq_nil_iff.1 e).1 ne
    · rw [up] at e
      exact ih (rest.dropLast) e (by simp [hr])

def plant (d : Disk) (loc : Location) (node : Node) : Disk :=
  if h : loc ≠ [] ∧ d.get? loc = none ∧ d.IsDirectory loc.dropLast then
    { d with
      nodes := d.nodes ++ [(loc, node)]
      distinct := by
        have free := (d.get?_eq_none_iff h.1).1 h.2.1
        rw [List.map_append, List.nodup_append]
        refine ⟨d.distinct, by simp, ?_⟩
        intro a ha b hb e
        simp at hb
        exact free (hb ▸ e ▸ ha)
      rooted := by
        intro k n hk
        rcases List.mem_append.1 hk with hk | hk
        · refine ⟨(d.rooted k n hk).1, (d.rooted k n hk).2.imp_right fun e => ?_⟩
          exact List.mem_append_left _ e
        · simp only [List.mem_singleton, Prod.mk.injEq] at hk
          obtain ⟨rfl, rfl⟩ := hk
          refine ⟨h.1, ?_⟩
          by_cases ne : k.dropLast = []
          · exact .inl ne
          · exact .inr (List.mem_append_left _ ((d.get?_eq_some_iff ne _).1 h.2.2)) }
  else d

/-- The pair of a file with new content; any other pair stays. -/
def refilled (loc : Location) (content : Bytes) (p : Location × Node) : Location × Node :=
  if p.1 = loc ∧ p.2.isFile then (p.1, .file content) else p

private theorem refilled_fst (loc : Location) (content : Bytes) (p : Location × Node) :
    (refilled loc content p).1 = p.1 := by
  unfold refilled; split <;> rfl

private theorem refilled_directory (loc : Location) (content : Bytes) (k : Location) :
    refilled loc content (k, .directory) = (k, .directory) := by
  simp [refilled, Node.isFile]

def refill (d : Disk) (loc : Location) (content : Bytes) : Disk :=
  { d with
    nodes := d.nodes.map (refilled loc content)
    distinct := by
      rw [List.map_map, show Prod.fst ∘ refilled loc content = Prod.fst from
        funext (refilled_fst loc content)]
      exact d.distinct
    rooted := by
      intro k n hk
      obtain ⟨⟨k', n'⟩, hp, e⟩ := List.mem_map.1 hk
      have hk' : k' = k := by
        have := refilled_fst loc content (k', n')
        rw [e] at this
        exact this.symm
      subst hk'
      refine ⟨(d.rooted k' n' hp).1, (d.rooted k' n' hp).2.imp_right fun e => ?_⟩
      exact List.mem_map.2 ⟨_, e, refilled_directory loc content _⟩ }

def uproot (d : Disk) (loc : Location) : Disk :=
  { d with
    nodes := d.nodes.filter fun p => !loc.isPrefixOf p.1
    distinct := d.distinct.sublist (List.Sublist.map _ List.filter_sublist)
    rooted := by
      intro k n hk
      obtain ⟨hk, keep⟩ := List.mem_filter.1 hk
      refine ⟨(d.rooted k n hk).1, (d.rooted k n hk).2.imp_right fun e => ?_⟩
      refine List.mem_filter.2 ⟨e, ?_⟩
      simp only [Bool.not_eq_true', ← Bool.not_eq_true, List.isPrefixOf_iff_prefix] at keep ⊢
      exact fun le => keep (le.trans (List.dropLast_prefix k)) }

def clear (d : Disk) (loc : Location) : Disk :=
  { d with
    nodes := d.nodes.filter fun p => !loc.isPrefixOf p.1 || p.1 == loc
    distinct := d.distinct.sublist (List.Sublist.map _ List.filter_sublist)
    rooted := by
      intro k n hk
      obtain ⟨hk, keep⟩ := List.mem_filter.1 hk
      refine ⟨(d.rooted k n hk).1, (d.rooted k n hk).2.imp_right fun e => ?_⟩
      refine List.mem_filter.2 ⟨e, ?_⟩
      simp only [Bool.or_eq_true, Bool.not_eq_true', ← Bool.not_eq_true,
        List.isPrefixOf_iff_prefix, beq_iff_eq] at keep ⊢
      refine .inl fun le => ?_
      rcases keep with keep | keep
      · exact keep (le.trans (List.dropLast_prefix k))
      · have short := le.length_le
        have pos := List.length_pos_iff.2 (d.rooted k n hk).1
        rw [List.length_dropLast, ← keep] at short
        omega }

/-- The pair of an entry below one location, carried below another. -/
def carried (source target : Location) (p : Location × Node) : Location × Node :=
  (target ++ p.1.drop source.length, p.2)

def graft (d : Disk) (source target : Location) : Disk :=
  if h : source ≠ [] ∧ target ≠ [] ∧ source.isPrefixOf target = false ∧
      d.get? target = none ∧ d.IsDirectory target.dropLast then
    { d with
      nodes := d.nodes.filter (fun p => !source.isPrefixOf p.1) ++
        (d.nodes.filter fun p => source.isPrefixOf p.1).map (carried source target)
      distinct := by
        obtain ⟨sne, tne, apart, free, up⟩ := h
        have free := (d.get?_eq_none_iff tne).1 free
        rw [List.map_append, List.nodup_append]
        refine ⟨d.distinct.sublist (List.Sublist.map _ List.filter_sublist), ?_, ?_⟩
        · rw [List.map_map]
          have base : ((d.nodes.filter fun p => source.isPrefixOf p.1).map Prod.fst).Nodup :=
            d.distinct.sublist (List.Sublist.map _ List.filter_sublist)
          rw [List.Nodup, List.pairwise_map] at base ⊢
          refine base.imp_of_mem fun {a b} ha hb ne e => ne ?_
          have pa := List.isPrefixOf_iff_prefix.1 (List.mem_filter.1 ha).2
          have pb := List.isPrefixOf_iff_prefix.1 (List.mem_filter.1 hb).2
          obtain ⟨ra, ea⟩ := pa
          obtain ⟨rb, eb⟩ := pb
          simp only [Function.comp, carried, ← ea, ← eb, List.drop_left,
            List.append_cancel_left_eq] at e
          rw [← ea, ← eb, e]
        · intro a ha b hb e
          subst e
          obtain ⟨⟨k, n⟩, hk, rfl⟩ := List.mem_map.1 ha
          obtain ⟨q, hq, e⟩ := List.mem_map.1 hb
          obtain ⟨q', hq', rfl⟩ := List.mem_map.1 hq
          exact free (d.mem_of_isPrefix tne (List.mem_filter.1 hk).1 ⟨_, e⟩)
      rooted := by
        obtain ⟨sne, tne, apart, free, up⟩ := h
        intro k n hk
        rcases List.mem_append.1 hk with hk | hk
        · obtain ⟨hk, keep⟩ := List.mem_filter.1 hk
          refine ⟨(d.rooted k n hk).1, (d.rooted k n hk).2.imp_right fun e => ?_⟩
          refine List.mem_append_left _ (List.mem_filter.2 ⟨e, ?_⟩)
          simp only [Bool.not_eq_true', ← Bool.not_eq_true, List.isPrefixOf_iff_prefix] at keep ⊢
          exact fun le => keep (le.trans (List.dropLast_prefix k))
        · obtain ⟨⟨k', n'⟩, hq, e⟩ := List.mem_map.1 hk
          obtain ⟨hq, below⟩ := List.mem_filter.1 hq
          obtain ⟨rest, rfl⟩ := List.isPrefixOf_iff_prefix.1 below
          simp only [carried, List.drop_left, Prod.mk.injEq] at e
          obtain ⟨rfl, rfl⟩ := e
          refine ⟨by simp [tne], ?_⟩
          by_cases rne : rest = []
          · subst rne
            rw [List.append_nil]
            by_cases ne : target.dropLast = []
            · exact .inl ne
            · refine .inr (List.mem_append_left _ (List.mem_filter.2
                ⟨(d.get?_eq_some_iff ne _).1 up, ?_⟩))
              simp only [Bool.not_eq_true']
              rw [← Bool.not_eq_true, List.isPrefixOf_iff_prefix] at apart ⊢
              exact fun le => apart (le.trans (List.dropLast_prefix target))
          · right
            rw [List.dropLast_append_of_ne_nil rne]
            rcases (d.rooted _ n' hq).2 with e | e
            · rw [List.dropLast_append_of_ne_nil rne] at e
              exact absurd (List.append_eq_nil_iff.1 e).1 sne
            · rw [List.dropLast_append_of_ne_nil rne] at e
              refine List.mem_append_right _ (List.mem_map.2
                ⟨(source ++ rest.dropLast, .directory), List.mem_filter.2 ⟨e, ?_⟩, ?_⟩)
              · exact List.isPrefixOf_iff_prefix.2 (List.prefix_append _ _)
              · simp [carried] }
  else d

def children (d : Disk) (loc : Location) : List (Name × Node) :=
  d.nodes.filterMap fun (k, node) =>
    if k.dropLast = loc then k.getLast?.map fun name => (name, node) else none

/-- Everything strictly below a location, with the names from there down. -/
def below (d : Disk) (loc : Location) : List (Location × Node) :=
  d.nodes.filterMap fun (k, node) =>
    if loc.isPrefixOf k ∧ k ≠ loc then some (k.drop loc.length, node) else none

end Disk
end LayeredTree
