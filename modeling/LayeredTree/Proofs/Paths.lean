import Mathlib.Data.List.Basic
import Mathlib.Data.List.TakeWhile
import LayeredTree.Proofs.Disk.Entries
import LayeredTree.Proofs.Segments

set_option autoImplicit false

namespace LayeredTree

namespace Path

variable {p q : Path}

/-- The pieces of a path between its slashes. -/
def segments (p : Path) : List Bytes := Bytes.splitOn slash p.text

/-- The segments that lead somewhere. -/
def steps (p : Path) : List Bytes := p.segments.filter fun s => !isIdle s

theorem segments_ne_nil (p : Path) : p.segments ≠ [] := Bytes.splitOn_ne_nil slash p.text

theorem isIdle_nil : isIdle [] = true := rfl

theorem isIdle_dot : isIdle dot = true := rfl

theorem isAbsolute_iff : p.isAbsolute = true ↔ p.text.head? = some slash := by
  simp [isAbsolute]

theorem ne_nil_of_isAbsolute (h : p.isAbsolute = true) : p.text ≠ [] := by
  intro e
  simp [isAbsolute, e] at h

theorem exists_body (ne : p.text ≠ []) : ∃ body, (p.text = body ∨ p.text = body ++ [slash]) ∧
    ∀ name : Bytes, name.head? ≠ some slash → (p.child name).text = body ++ slash :: name := by
  by_cases closed : p.text.getLast? = some slash
  · obtain ⟨body, e⟩ := List.getLast?_eq_some_iff.mp closed
    refine ⟨body, .inr e, fun name rel => ?_⟩
    have rel' : ¬ (Path.mk name).isAbsolute = true := by rwa [isAbsolute_iff]
    rw [child, join, if_neg rel', if_pos (by simp [closed]), e, List.append_assoc,
      List.singleton_append]
  · refine ⟨p.text, .inl rfl, fun name rel => ?_⟩
    have rel' : ¬ (Path.mk name).isAbsolute = true := by rwa [isAbsolute_iff]
    rw [child, join, if_neg rel', if_neg (by simp [closed, ne])]

theorem head?_ne_slash_of_notMem {name : Bytes} (h : slash ∉ name) : name.head? ≠ some slash :=
  fun e => h (List.mem_of_head? e)

theorem exists_stem (ne : p.text ≠ []) : ∃ stem, (p.segments = stem ∨ p.segments = stem ++ [[]]) ∧
    ∀ name : Bytes, slash ∉ name → (p.child name).segments = stem ++ [name] := by
  obtain ⟨body, hb, h⟩ := exists_body ne
  refine ⟨Bytes.splitOn slash body, ?_, fun name free => ?_⟩
  · refine hb.imp (fun e => by rw [segments, e]) fun e => ?_
    rw [segments, e, Bytes.splitOn_append_cons]
    rfl
  · rw [segments, h name (head?_ne_slash_of_notMem free), Bytes.splitOn_append_cons,
      Bytes.splitOn_of_notMem free]

theorem child_ne_nil (ne : p.text ≠ []) {name : Bytes} (rel : name.head? ≠ some slash) :
    (p.child name).text ≠ [] := by
  obtain ⟨body, -, h⟩ := exists_body ne
  simp [h name rel]

theorem head?_child (ne : p.text ≠ []) {name : Bytes} (rel : name.head? ≠ some slash) :
    (p.child name).text.head? = p.text.head? := by
  obtain ⟨body, hb, h⟩ := exists_body ne
  rw [h name rel]
  cases body with
  | nil =>
    rcases hb with e | e
    · exact absurd e ne
    · rw [e]
      rfl
  | cons b body => rcases hb with e | e <;> rw [e] <;> rfl

theorem notMem_child (ne : p.text ≠ []) {name : Bytes} {b : UInt8} (other : b ≠ slash)
    (rel : name.head? ≠ some slash) (hp : b ∉ p.text) (hn : b ∉ name) :
    b ∉ (p.child name).text := by
  obtain ⟨body, hb, h⟩ := exists_body ne
  have hb' : b ∉ body := by rcases hb with e | e <;> simp_all
  simp [h name rel, hb', hn, other]

theorem le_length_child (ne : p.text ≠ []) {name : Bytes} (rel : name.head? ≠ some slash) :
    p.text.length + name.length ≤ (p.child name).text.length := by
  obtain ⟨body, hb, h⟩ := exists_body ne
  rw [h name rel, List.length_append, List.length_cons]
  rcases hb with e | e
  · rw [e]
    omega
  · rw [e, List.length_append, List.length_singleton]
    omega

theorem length_lt_child (ne : p.text ≠ []) {name : Bytes} (rel : name.head? ≠ some slash)
    (hn : name ≠ []) : p.text.length < (p.child name).text.length := by
  have pos := List.length_pos_iff.mpr hn
  have longer := le_length_child ne rel
  omega

theorem steps_child (ne : p.text ≠ []) {name : Bytes} (free : slash ∉ name)
    (busy : isIdle name = false) : (p.child name).steps = p.steps ++ [name] := by
  obtain ⟨stem, hs, h⟩ := exists_stem ne
  rw [steps, h name free, steps]
  rcases hs with e | e <;> rw [e] <;> simp [busy, isIdle_nil]

theorem components_of_absolute (h : p.isAbsolute = true) :
    p.components = .root :: p.steps.map stepOf := by
  rw [components, if_pos h]
  rfl

def start (p : Path) : List Component :=
  if p.isAbsolute then [.root] else if p.segments.head? == some dot then [.here] else []

theorem components_eq (p : Path) : p.components = p.start ++ p.steps.map stepOf := rfl

theorem start_congr (absolute : q.isAbsolute = p.isAbsolute)
    (first : q.segments.head? = p.segments.head?) : q.start = p.start := by
  rw [start, start, absolute, first]

private theorem dropWhile_reverse {segments : List Bytes} {last : Bytes} {rest : List Bytes}
    (h : segments.reverse.dropWhile isIdle = last :: rest) : isIdle last = false ∧
      ∃ idles : List Bytes, (∀ s ∈ idles, isIdle s = true) ∧
        segments = rest.reverse ++ last :: idles := by
  have split := List.takeWhile_append_dropWhile (p := isIdle) (l := segments.reverse)
  rw [h] at split
  refine ⟨?_, (segments.reverse.takeWhile isIdle).reverse, ?_, ?_⟩
  · have := List.head_dropWhile_not isIdle (l := segments.reverse) (by simp [h])
    simpa [h] using this
  · intro s hs
    exact List.mem_takeWhile_imp (List.mem_reverse.mp hs)
  · have := congrArg List.reverse split
    simp only [List.reverse_append, List.reverse_cons, List.reverse_reverse] at this
    simpa using this.symm

private theorem filter_dropWhile_reverse (rest : List Bytes) :
    (rest.dropWhile isIdle).reverse.filter (fun s => !isIdle s) =
      rest.reverse.filter fun s => !isIdle s := by
  rw [List.filter_reverse, List.filter_reverse]
  congr 1
  induction rest with
  | nil => rfl
  | cons s rest ih =>
    by_cases e : isIdle s = true
    · rw [List.dropWhile_cons_of_pos e, ih, List.filter_cons_of_neg (by simp [e])]
    · rw [List.dropWhile_cons_of_neg e]

private theorem filter_idles {idles : List Bytes} (h : ∀ s ∈ idles, isIdle s = true) :
    idles.filter (fun s => !isIdle s) = [] := by
  rw [List.filter_eq_nil_iff]
  intro s hs
  simp [h s hs]

private theorem pieces_of_dropWhile {segments : List Bytes} {last : Bytes} {rest : List Bytes}
    (h : segments.reverse.dropWhile isIdle = last :: rest) :
    isIdle last = false ∧ (rest.dropWhile isIdle).reverse <+: segments ∧
      segments.filter (fun s => !isIdle s) =
        (rest.dropWhile isIdle).reverse.filter (fun s => !isIdle s) ++ [last] := by
  obtain ⟨busy, idles, hi, e⟩ := dropWhile_reverse h
  refine ⟨busy, ?_, ?_⟩
  · rw [e]
    exact (List.reverse_prefix.mpr (List.dropWhile_suffix _)).trans (List.prefix_append _ _)
  · rw [e, List.filter_append, List.filter_cons_of_pos (by simp [busy]), filter_idles hi,
      filter_dropWhile_reverse]

private theorem busy_getLast (rest : List Bytes) (ne : (rest.dropWhile isIdle).reverse ≠ []) :
    ∃ init last, (rest.dropWhile isIdle).reverse = init ++ [last] ∧ isIdle last = false := by
  cases e : rest.dropWhile isIdle with
  | nil => simp [e] at ne
  | cons last more =>
    refine ⟨more.reverse, last, List.reverse_cons, ?_⟩
    have := List.head_dropWhile_not isIdle (l := rest) (by simp [e])
    simpa [e] using this

/-- A parent has the steps before the last one; it may be the empty path, which stands for the
working directory. -/
structure IsParent (q p : Path) : Prop where
  mem : ∀ b ∈ q.text, b ≠ slash → b ∈ p.text
  isAbsolute : q.text ≠ [] → q.isAbsolute = p.isAbsolute
  relative : q.text = [] → p.isAbsolute = false
  length : q.text.length ≤ p.text.length
  steps : p.steps = [] ∧ q.text = [] ∨ ∃ last, isIdle last = false ∧ p.steps = q.steps ++ [last]
  busy : q.steps ≠ [] → ∃ init last, q.segments = init ++ [last] ∧ isIdle last = false

private theorem mem_pieces {b : UInt8} {body : Bytes} {pieces : List Bytes} (other : b ≠ slash)
    (pre : pieces <+: Bytes.splitOn slash body) (h : b ∈ Bytes.joinWith slash pieces) :
    b ∈ body := by
  obtain ⟨piece, hp, hb⟩ := Bytes.mem_joinWith other h
  exact Bytes.mem_of_mem_splitOn (pre.subset hp) hb

private theorem length_pieces {body : Bytes} {pieces : List Bytes}
    (pre : pieces <+: Bytes.splitOn slash body) :
    (Bytes.joinWith slash pieces).length ≤ body.length := by
  by_cases none : pieces = []
  · subst none
    exact Nat.zero_le _
  obtain ⟨rest, e⟩ := pre
  by_cases all : rest = []
  · subst all
    rw [List.append_nil] at e
    rw [e, Bytes.joinWith_splitOn]
  · rw [← Bytes.joinWith_splitOn slash body, ← e, Bytes.joinWith_append none all,
      List.length_append]
    exact Nat.le_add_right _ _

private theorem notMem_pieces {body : Bytes} {pieces : List Bytes}
    (pre : pieces <+: Bytes.splitOn slash body) : ∀ piece ∈ pieces, slash ∉ piece :=
  fun _ hp => Bytes.notMem_of_mem_splitOn (pre.subset hp)

private theorem dotted_segments {body : Bytes} (hb : body = [] ∨ body.head? = some slash) :
    Bytes.splitOn slash (dot ++ body) = dot :: (Bytes.splitOn slash body).tail := by
  rcases hb with rfl | hb
  · rfl
  · obtain ⟨body, rfl⟩ := List.head?_eq_some_iff.mp hb
    rw [Bytes.splitOn_append_cons, Bytes.splitOn_cons_self]
    rfl

private theorem dotted_text (h : p.segments.head? = some dot) :
    ∃ body, p.text = dot ++ body ∧ (body = [] ∨ body.head? = some slash) := by
  obtain ⟨text⟩ := p
  cases text with
  | nil => simp [segments, Bytes.splitOn, dot] at h
  | cons b body =>
    rw [segments] at h
    by_cases e : b = slash
    · subst e
      simp [Bytes.splitOn_cons_self, dot] at h
    · obtain ⟨piece, pieces, hs⟩ := List.exists_cons_of_ne_nil (Bytes.splitOn_ne_nil slash body)
      rw [Bytes.splitOn_cons_of_ne e body hs, List.head?_cons, Option.some.injEq] at h
      obtain ⟨rfl, rfl⟩ := List.cons_eq_cons.mp h
      exact ⟨body, rfl, (Bytes.head?_splitOn slash body).mp (by rw [hs]; rfl)⟩

/-- A path leads in by the slash of the root, by a dot, or by nothing. Its body is the text behind
that, and the parent is made of the body's pieces. -/
private inductive Begins (p : Path) : Bytes → Bytes → Prop
  | root {body : Bytes} : p.text = slash :: body → Begins p [slash] body
  | dotted {body : Bytes} : p.text = dot ++ body → body = [] ∨ body.head? = some slash →
      Begins p dot body
  | plain : p.isAbsolute = false → p.segments.head? ≠ some dot → Begins p [] p.text

/-- What the parent is made of: the pieces of the body before the last step, without the idle ones
that come to stand last. -/
private def parentOf (lead body : Bytes) : Option Path :=
  match (Bytes.splitOn slash body).reverse.dropWhile isIdle with
  | _ :: rest => some ⟨lead ++ Bytes.joinWith slash (rest.dropWhile isIdle).reverse⟩
  | [] => if lead = dot then some ⟨[]⟩ else none

namespace Begins

variable {lead body body' : Bytes}

private theorem exists_begins (p : Path) : ∃ lead body, p.Begins lead body := by
  by_cases absolute : p.isAbsolute = true
  · obtain ⟨body, e⟩ := List.head?_eq_some_iff.mp (isAbsolute_iff.mp absolute)
    exact ⟨_, _, .root e⟩
  · by_cases dotted : p.segments.head? = some dot
    · obtain ⟨body, e, hb⟩ := dotted_text dotted
      exact ⟨_, _, .dotted e hb⟩
    · exact ⟨_, _, .plain (by simpa using absolute) dotted⟩

private theorem text (h : p.Begins lead body) : p.text = lead ++ body := by
  cases h with
  | root e => exact e
  | dotted e _ => exact e
  | plain => rfl

private theorem start (h : p.Begins lead body) :
    p.start = if lead = [slash] then [.root] else if lead = dot then [.here] else [] := by
  cases h with
  | root e => rw [Path.start, if_pos (by simp [Path.isAbsolute, e]), if_pos rfl]
  | dotted e hb =>
    have relative : p.isAbsolute = false := by
      rw [Path.isAbsolute, e]
      rfl
    have first : p.segments.head? = some dot := by
      rw [segments, e, dotted_segments hb]
      rfl
    rw [Path.start, relative, first]
    rfl
  | plain relative other =>
    rw [Path.start, relative, if_neg (by simp), if_neg (by simpa using other)]
    rfl

private theorem isAbsolute (h : p.Begins lead body) :
    p.isAbsolute = decide (lead = [slash]) := by
  cases h with
  | root e => simp [Path.isAbsolute, e]
  | dotted e _ =>
    rw [Path.isAbsolute, e]
    rfl
  | plain relative _ => rw [relative]; rfl

private theorem steps (h : p.Begins lead body) :
    p.steps = (Bytes.splitOn slash body).filter fun s => !isIdle s := by
  cases h with
  | root e =>
    rw [Path.steps, segments, e, Bytes.splitOn_cons_self,
      List.filter_cons_of_neg (by simp [isIdle_nil])]
  | dotted e hb =>
    obtain ⟨more, hm⟩ := List.head?_eq_some_iff.mp ((Bytes.head?_splitOn slash body).mpr hb)
    rw [Path.steps, segments, e, dotted_segments hb, hm, List.tail_cons,
      List.filter_cons_of_neg (by simp [isIdle_dot]),
      List.filter_cons_of_neg (by simp [isIdle_nil])]
  | plain => rfl

private theorem getLast?_segments_iff (h : p.Begins lead body) {last : Bytes}
    (busy : isIdle last = false) : p.segments.getLast? = some last ↔
      (Bytes.splitOn slash body).getLast? = some last := by
  have behind : ∀ {first : Bytes} (pieces : List Bytes), isIdle first = true →
      ((first :: pieces).getLast? = some last ↔ pieces.getLast? = some last) := by
    intro first pieces idle
    cases pieces with
    | nil =>
      refine iff_of_false (fun e => ?_) (by rintro ⟨⟩)
      obtain rfl : first = last := Option.some.inj e
      rw [idle] at busy
      cases busy
    | cons => rw [List.getLast?_cons_cons]
  cases h with
  | root e => rw [segments, e, Bytes.splitOn_cons_self, behind _ isIdle_nil]
  | dotted e hb =>
    obtain ⟨more, hm⟩ := List.head?_eq_some_iff.mp ((Bytes.head?_splitOn slash body).mpr hb)
    rw [segments, e, dotted_segments hb, hm, List.tail_cons, behind _ isIdle_dot,
      behind _ isIdle_nil]
  | plain => rfl

private theorem parent_eq (h : p.Begins lead body) : p.parent = parentOf lead body := by
  unfold parent
  cases h with
  | root e =>
    rw [if_pos (by simp [Path.isAbsolute, e]), e]
    rfl
  | dotted e hb =>
    have relative : ¬ p.isAbsolute = true := by
      rw [Path.isAbsolute, e]
      rintro ⟨⟩
    rw [if_neg relative, e, if_pos (by rw [dotted_segments hb, List.head?_cons, BEq.rfl])]
    rfl
  | plain relative other =>
    rw [if_neg (by simp [relative]), if_neg (by simpa [segments] using other)]
    rfl

private theorem parent_of_cons (h : p.Begins lead body) {last : Bytes} {rest : List Bytes}
    (run : (Bytes.splitOn slash body).reverse.dropWhile isIdle = last :: rest) :
    p.parent = some ⟨lead ++ Bytes.joinWith slash (rest.dropWhile isIdle).reverse⟩ := by
  rw [h.parent_eq, parentOf, run]

private theorem parent_of_nil (h : p.Begins lead body)
    (run : (Bytes.splitOn slash body).reverse.dropWhile isIdle = []) :
    p.parent = if lead = dot then some ⟨[]⟩ else none := by
  rw [h.parent_eq, parentOf, run]

end Begins

private theorem head?_of_prefix {pieces whole : List Bytes} (pre : pieces <+: whole)
    (ne : pieces ≠ []) : pieces.head? = whole.head? := by
  obtain ⟨tail, rfl⟩ := pre
  rw [List.head?_append_of_ne_nil _ ne]

/-- Pieces from the start of a body, put together behind what a path leads in by, begin as the path
does, if the last of them leads somewhere. -/
private theorem Begins.upper {lead body : Bytes} (h : p.Begins lead body) {pieces : List Bytes}
    (pre : pieces <+: Bytes.splitOn slash body)
    (ends : pieces ≠ [] → ∃ init last, pieces = init ++ [last] ∧ isIdle last = false) :
    Begins ⟨lead ++ Bytes.joinWith slash pieces⟩ lead (Bytes.joinWith slash pieces) := by
  by_cases none : pieces = []
  · subst none
    cases h with
    | root => exact .root rfl
    | dotted => exact .dotted rfl (.inl rfl)
    | plain => exact .plain rfl (by decide)
  have first : (Bytes.splitOn slash (Bytes.joinWith slash pieces)).head? =
      (Bytes.splitOn slash body).head? := by
    rw [Bytes.splitOn_joinWith none (notMem_pieces pre), head?_of_prefix pre none]
  cases h with
  | root => exact .root rfl
  | dotted _ hb =>
    refine .dotted rfl ?_
    rw [← Bytes.head?_splitOn, first]
    exact (Bytes.head?_splitOn slash body).mpr hb
  | plain relative other =>
    refine .plain ?_ (fun dotted => other (first.symm.trans dotted))
    rw [← Bool.not_eq_true, isAbsolute_iff]
    intro head
    rcases (Bytes.head?_splitOn slash p.text).mp
      (first.symm.trans ((Bytes.head?_splitOn slash _).mpr (.inr head))) with e | e
    · -- The only piece of an empty text leads nowhere.
      obtain ⟨init, last, e', busy⟩ := ends none
      have only : last ∈ Bytes.splitOn slash p.text := pre.subset (by simp [e'])
      rw [e, Bytes.splitOn, List.mem_singleton] at only
      rw [only, isIdle_nil] at busy
      cases busy
    · rw [← isAbsolute_iff, relative] at e
      cases e

private theorem filter_joined {body : Bytes} {pieces : List Bytes}
    (pre : pieces <+: Bytes.splitOn slash body) :
    (Bytes.splitOn slash (Bytes.joinWith slash pieces)).filter (fun s => !isIdle s) =
      pieces.filter fun s => !isIdle s := by
  by_cases none : pieces = []
  · rw [none]
    rfl
  · rw [Bytes.splitOn_joinWith none (notMem_pieces pre)]

private theorem isParent_of_cons {lead body last : Bytes} {rest : List Bytes}
    (h : p.Begins lead body)
    (run : (Bytes.splitOn slash body).reverse.dropWhile isIdle = last :: rest) :
    IsParent ⟨lead ++ Bytes.joinWith slash (rest.dropWhile isIdle).reverse⟩ p := by
  obtain ⟨busy, pre, steps⟩ := pieces_of_dropWhile run
  have ends := busy_getLast rest
  generalize (rest.dropWhile isIdle).reverse = pieces at pre steps ends ⊢
  have upper := h.upper pre ends
  refine ⟨fun b hb other => ?_, fun _ => ?_, fun e => ?_, ?_, .inr ⟨last, busy, ?_⟩, fun ne => ?_⟩
  · rw [h.text]
    exact (List.mem_append.mp hb).elim (List.mem_append_left _)
      fun hb => List.mem_append_right _ (mem_pieces other pre hb)
  · rw [upper.isAbsolute, h.isAbsolute]
  · rw [h.isAbsolute, (List.append_eq_nil_iff.mp e).1]
    rfl
  · rw [h.text, List.length_append, List.length_append]
    exact Nat.add_le_add_left (length_pieces pre) _
  · rw [h.steps, upper.steps, filter_joined pre, steps]
  · rw [upper.steps, filter_joined pre] at ne
    have full : pieces ≠ [] := by
      rintro rfl
      exact ne rfl
    obtain ⟨init, last', e, busy'⟩ := ends full
    have inner : (Bytes.splitOn slash (Bytes.joinWith slash pieces)).getLast? = some last' := by
      rw [Bytes.splitOn_joinWith full (notMem_pieces pre), e, List.getLast?_concat]
    obtain ⟨init', e'⟩ := List.getLast?_eq_some_iff.mp
      ((upper.getLast?_segments_iff busy').mpr inner)
    exact ⟨init', last', e', busy'⟩

private theorem steps_eq_nil_iff {lead body : Bytes} (h : p.Begins lead body) :
    p.steps = [] ↔ (Bytes.splitOn slash body).reverse.dropWhile isIdle = [] := by
  rw [h.steps, List.filter_eq_nil_iff, List.dropWhile_eq_nil_iff]
  simp

theorem isParent_of_parent (h : p.parent = some q) : IsParent q p := by
  obtain ⟨lead, body, begins⟩ := Begins.exists_begins p
  cases run : (Bytes.splitOn slash body).reverse.dropWhile isIdle with
  | cons last rest =>
    rw [begins.parent_of_cons run] at h
    cases h
    exact isParent_of_cons begins run
  | nil =>
    -- A dot without steps behind it has the empty path for its parent.
    rw [begins.parent_of_nil run] at h
    split at h
    · rename_i dotted
      cases h
      refine ⟨by simp, fun ne => absurd rfl ne, fun _ => ?_, Nat.zero_le _,
        .inl ⟨(steps_eq_nil_iff begins).mpr run, rfl⟩, fun ne => absurd rfl ne⟩
      rw [begins.isAbsolute, dotted]
      rfl
    · cases h

theorem exists_parent (h : p.steps ≠ []) : ∃ q, p.parent = some q := by
  obtain ⟨lead, body, begins⟩ := Begins.exists_begins p
  obtain ⟨last, rest, run⟩ := List.exists_cons_of_ne_nil (mt (steps_eq_nil_iff begins).mpr h)
  exact ⟨_, begins.parent_of_cons run⟩

theorem start_of_parent (h : p.parent = some q) (busy : p.steps ≠ []) : q.start = p.start := by
  obtain ⟨lead, body, begins⟩ := Begins.exists_begins p
  obtain ⟨last, rest, run⟩ := List.exists_cons_of_ne_nil (mt (steps_eq_nil_iff begins).mpr busy)
  obtain ⟨-, pre, -⟩ := pieces_of_dropWhile run
  rw [begins.parent_of_cons run] at h
  cases h
  rw [(begins.upper pre (busy_getLast rest)).start, begins.start]

private theorem Begins.child {lead body rest : Bytes} (h : p.Begins lead body) (ne : p.text ≠ [])
    (e : q.text = p.text ++ slash :: rest) : q.Begins lead (body ++ slash :: rest) := by
  cases h with
  | root e' => exact .root (by rw [e, e']; rfl)
  | dotted e' hb =>
    refine .dotted (by rw [e, e', List.append_assoc]) (.inr ?_)
    rcases hb with rfl | hb
    · rfl
    · rw [List.head?_append, hb]
      rfl
  | plain relative other =>
    rw [← e]
    refine .plain ?_ fun dotted => other ?_
    · rw [Path.isAbsolute, e, List.head?_append_of_ne_nil _ ne]
      exact relative
    · rwa [segments, e, Bytes.splitOn_append_cons,
        List.head?_append_of_ne_nil _ (Bytes.splitOn_ne_nil slash p.text)] at dotted

theorem parent_child_of_busy (ne : p.text ≠ [])
    (h : ∃ init last, p.segments = init ++ [last] ∧ isIdle last = false) {name : Bytes}
    (free : slash ∉ name) (plain : isIdle name = false) : (p.child name).parent = some p := by
  obtain ⟨init, last, hs, busy⟩ := h
  obtain ⟨stem, hb, text⟩ := exists_body ne
  have whole : p.text = stem := by
    refine hb.resolve_right fun e => ?_
    rw [segments, e, Bytes.splitOn_append_cons] at hs
    obtain rfl : [] = last := List.singleton_inj.mp (List.append_inj' hs rfl).2
    cases busy
  obtain ⟨lead, body, begins⟩ := Begins.exists_begins p
  have child := begins.child ne (whole ▸ text name (head?_ne_slash_of_notMem free))
  have run : (Bytes.splitOn slash (body ++ slash :: name)).reverse.dropWhile isIdle =
      name :: (Bytes.splitOn slash body).reverse := by
    rw [Bytes.splitOn_append_cons, Bytes.splitOn_of_notMem free, List.reverse_append,
      List.reverse_singleton, List.singleton_append,
      List.dropWhile_cons_of_neg (by simp [plain])]
  obtain ⟨init', e⟩ := List.getLast?_eq_some_iff.mp
    ((begins.getLast?_segments_iff busy).mp (hs ▸ List.getLast?_concat))
  have kept : ((Bytes.splitOn slash body).reverse.dropWhile isIdle).reverse =
      Bytes.splitOn slash body := by
    rw [e]
    simp [busy]
  rw [child.parent_of_cons run, kept, Bytes.joinWith_splitOn, ← begins.text]

/-- A path that is just the parent of its children. -/
structure IsTidy (p : Path) : Prop where
  ne_nil : p.text ≠ []
  parent_child : ∀ name : Name, (p.child name.bytes).parent = some p

theorem isTidy_child (ne : p.text ≠ []) (name : Name) : (p.child name.bytes).IsTidy := by
  have rel := head?_ne_slash_of_notMem name.slash_notMem
  obtain ⟨stem, -, child⟩ := exists_stem ne
  exact ⟨child_ne_nil ne rel, fun other => parent_child_of_busy (child_ne_nil ne rel)
    ⟨stem, name.bytes, child _ name.slash_notMem, name.isIdle_bytes⟩ other.slash_notMem
      other.isIdle_bytes⟩

theorem fileName_eq_some_iff {name : Bytes} :
    p.fileName = some name ↔ (∃ init, p.steps = init ++ [name]) ∧ name ≠ dotDot := by
  unfold fileName components
  have same : (Bytes.splitOn slash p.text).filter (fun s => !isIdle s) = p.steps := rfl
  dsimp only
  rw [same]
  rcases List.eq_nil_or_concat p.steps with e | ⟨init, last, e⟩
  · rw [e]
    simp only [List.map_nil, List.append_nil]
    constructor
    · intro h
      split at h
      · rename_i hl
        split at hl
        · simp at hl
        · split at hl <;> simp at hl
      · cases h
    · rintro ⟨⟨init, h⟩, -⟩
      simp at h
  · rw [e, List.concat_eq_append, List.map_append, ← List.append_assoc]
    simp only [List.map_cons, List.map_nil, List.getLast?_append, List.getLast?_singleton,
      Option.some_or, stepOf]
    by_cases up : last = dotDot
    · subst up
      simp only [if_true]
      constructor
      · intro h
        cases h
      · rintro ⟨⟨init', h⟩, ne⟩
        exact absurd (List.append_inj' h rfl).2.symm (by simpa using ne)
    · simp only [up, if_false, Option.some.injEq]
      constructor
      · rintro rfl
        exact ⟨⟨init, rfl⟩, up⟩
      · rintro ⟨⟨init', h⟩, -⟩
        exact (List.cons_eq_cons.mp (List.append_inj' h rfl).2).1

theorem components_child (p : Path) {name : Bytes} (free : slash ∉ name)
    (busy : isIdle name = false) : (p.child name).components = p.components ++ [stepOf name] := by
  have rel := head?_ne_slash_of_notMem free
  by_cases ne : p.text = []
  · have whole : p.child name = ⟨name⟩ := by
      have rel' : ¬ (Path.mk name).isAbsolute = true := by rwa [isAbsolute_iff]
      rw [child, join, if_neg rel', if_pos (by simp [ne]), ne, List.nil_append]
    have alone : (Path.mk name).segments = [name] := Bytes.splitOn_of_notMem free
    have relative : (Path.mk name).isAbsolute = false := by
      rw [← Bool.not_eq_true, isAbsolute_iff]
      exact rel
    have other : name ≠ dot := by
      rintro rfl
      cases busy
    have nothing : p.components = [] := by
      obtain ⟨text⟩ := p
      simp only at ne
      rw [ne]
      rfl
    rw [whole, nothing, components_eq, start, steps, alone, relative]
    simp [busy, other]
  · obtain ⟨stem, segments, child⟩ := exists_stem ne
    have absolute : (p.child name).isAbsolute = p.isAbsolute := by
      rw [Bool.eq_iff_iff, isAbsolute_iff, isAbsolute_iff, head?_child ne rel]
    have stem_ne : stem ≠ [] := by
      rintro rfl
      have only : p.segments = [[]] := segments.resolve_left p.segments_ne_nil
      have same := Bytes.joinWith_splitOn slash p.text
      rw [show Bytes.splitOn slash p.text = [[]] from only] at same
      exact ne same.symm
    have first : (p.child name).segments.head? = p.segments.head? := by
      rw [child name free]
      rcases segments with e | e <;>
        rw [e, List.head?_append_of_ne_nil _ stem_ne]
      rw [List.head?_append_of_ne_nil _ stem_ne]
    rw [components_eq, components_eq, start_congr absolute first, steps_child ne free busy,
      List.map_append, List.append_assoc]
    rfl

theorem components_of_parent (h : p.parent = some q) (busy : p.steps ≠ []) :
    ∃ last, p.components = q.components ++ [last] := by
  obtain ⟨none, -⟩ | ⟨last, -, steps⟩ := (isParent_of_parent h).steps
  · exact absurd none busy
  · refine ⟨stepOf last, ?_⟩
    rw [components_eq, components_eq, start_of_parent h busy, steps, List.map_append,
      List.append_assoc]
    rfl

end Path

namespace Location

variable {loc other : Location}

theorem text_path_of_ne (ne : loc ≠ []) :
    (Location.path loc).text = slash :: Bytes.joinWith slash (loc.map Name.bytes) := by
  have form : ∀ (loc : Location), loc ≠ [] →
      loc.flatMap (fun name => slash :: name.bytes) =
        slash :: Bytes.joinWith slash (loc.map Name.bytes) := by
    intro loc
    induction loc with
    | nil => exact fun ne => absurd rfl ne
    | cons name rest ih =>
      intro _
      by_cases e : rest = []
      · subst e
        simp [Bytes.joinWith]
      · rw [List.flatMap_cons, ih e, List.map_cons, Bytes.joinWith_cons (by simpa using e)]
        rfl
  rw [path, if_neg (by simpa using ne)]
  exact form loc ne

@[simp] theorem head?_text_path (loc : Location) :
    (Location.path loc).text.head? = some slash := by
  by_cases ne : loc = []
  · subst ne
    rfl
  · rw [text_path_of_ne ne]
    rfl

theorem isAbsolute_path (loc : Location) : (Location.path loc).isAbsolute = true :=
  Path.isAbsolute_iff.mpr (head?_text_path loc)

@[simp] theorem text_path_ne_nil (loc : Location) : (Location.path loc).text ≠ [] := fun e => by
  have := head?_text_path loc
  simp [e] at this

theorem zero_notMem_path (loc : Location) : (0 : UInt8) ∉ (Location.path loc).text := by
  unfold path
  split
  · simp [slash]
  · simp only [List.mem_flatMap, List.mem_cons, not_exists, not_and, not_or]
    exact fun name _ => ⟨by simp [slash], name.zero_notMem⟩

theorem segments_path_of_ne (ne : loc ≠ []) :
    (Location.path loc).segments = [] :: loc.map Name.bytes := by
  rw [Path.segments, text_path_of_ne ne, Bytes.splitOn_cons_self,
    Bytes.splitOn_joinWith (by simpa using ne)]
  intro piece hp
  obtain ⟨name, -, rfl⟩ := List.mem_map.mp hp
  exact name.slash_notMem

private theorem filter_names (loc : Location) :
    (loc.map Name.bytes).filter (fun s => !Path.isIdle s) = loc.map Name.bytes := by
  rw [List.filter_eq_self]
  intro piece hp
  obtain ⟨name, -, rfl⟩ := List.mem_map.mp hp
  simp

@[simp] theorem steps_path (loc : Location) :
    (Location.path loc).steps = loc.map Name.bytes := by
  by_cases ne : loc = []
  · subst ne
    rfl
  · rw [Path.steps, segments_path_of_ne ne, List.filter_cons_of_neg (by simp [Path.isIdle_nil]),
      filter_names]

theorem components_path (loc : Location) :
    (Location.path loc).components = .root :: loc.map fun name => .normal name.bytes := by
  rw [Path.components_of_absolute (isAbsolute_path loc), steps_path, List.map_map]
  congr 1
  apply List.map_congr_left
  intro name _
  simp [Path.stepOf]

theorem child_path (loc : Location) (name : Name) :
    (Location.path loc).child name.bytes = Location.path (loc ++ [name]) := by
  have rel : ¬ (Path.mk name.bytes).isAbsolute = true := by
    rw [Path.isAbsolute_iff]
    exact Path.head?_ne_slash_of_notMem name.slash_notMem
  have closed : (Location.path loc).text.getLast? = some slash ↔ loc = [] := by
    constructor
    · intro h
      by_contra ne
      obtain ⟨init, last, rfl⟩ : ∃ init last, loc = init ++ [last] :=
        ⟨_, _, (List.dropLast_concat_getLast ne).symm⟩
      rw [path, if_neg (by simp), List.flatMap_append] at h
      simp only [List.flatMap_cons, List.flatMap_nil, List.append_nil, List.getLast?_append,
        List.getLast?_cons] at h
      simp only [Option.some_or, Option.some.injEq] at h
      have : slash ∈ last.bytes := by
        cases e : last.bytes.getLast? with
        | none => simp [List.getLast?_eq_none_iff] at e
        | some b =>
          rw [e, Option.getD_some] at h
          exact h ▸ List.mem_of_getLast? e
      exact last.slash_notMem this
    · rintro rfl
      rfl
  rw [Path.child, Path.join, if_neg rel]
  by_cases e : loc = []
  · subst e
    simp [path]
  · rw [if_neg (by simp [closed, e]), path, path, if_neg (by simpa using e), if_neg (by simp)]
    simp

theorem isTidy_path (loc : Location) : (Location.path loc).IsTidy := by
  cases loc using List.reverseRecOn with
  | nil =>
    refine ⟨by simp, fun name => ?_⟩
    have text : ((Location.path []).child name.bytes).text = slash :: name.bytes := by
      rw [child_path, text_path_of_ne (by simp)]
      rfl
    have run : (Bytes.splitOn slash name.bytes).reverse.dropWhile Path.isIdle = [name.bytes] := by
      rw [Bytes.splitOn_of_notMem name.slash_notMem, List.reverse_singleton,
        List.dropWhile_cons_of_neg (by simp)]
    rw [Path.Begins.parent_of_cons (.root text) run]
    rfl
  | append_singleton loc name =>
    rw [← child_path]
    exact Path.isTidy_child (text_path_ne_nil loc) name

theorem path_injective {loc loc' : Location} (h : Location.path loc = Location.path loc') :
    loc = loc' := by
  have steps := congrArg Path.steps h
  rw [steps_path, steps_path] at steps
  exact List.map_injective_iff.mpr (fun _ _ => Name.bytes_injective) steps

theorem isWithin_path_iff : (Location.path loc).isWithin (Location.path other) = true ↔
    other <+: loc := by
  rw [Path.isWithin, components_path, components_path, List.isPrefixOf_iff_prefix,
    List.cons_prefix_cons]
  constructor
  · rintro ⟨-, h⟩
    have inj : Function.Injective fun name : Name => Component.normal name.bytes := fun a b e =>
      Name.bytes_injective (Component.normal.inj e)
    rwa [List.prefix_map_iff_of_injective inj] at h
  · exact fun h => ⟨rfl, h.map _⟩

theorem same_path_iff : (Location.path loc).same (Location.path other) = true ↔ loc = other := by
  constructor
  · intro h
    have e : (Location.path loc).components = (Location.path other).components := by
      simpa [Path.same] using h
    have within : other <+: loc := isWithin_path_iff.mp (by simp [Path.isWithin, e])
    have within' : loc <+: other := isWithin_path_iff.mp (by simp [Path.isWithin, e])
    exact within'.eq_of_length_le within.length_le
  · rintro rfl
    simp [Path.same]

end Location
end LayeredTree
