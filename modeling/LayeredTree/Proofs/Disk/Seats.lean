import LayeredTree.Proofs.Disk.Reach

set_option autoImplicit false

namespace LayeredTree

namespace Path

variable {p : Path} {init : List Bytes} {last : Bytes}

def IsClosed (p : Path) : Prop := ∃ init last, p.segments = init ++ [last] ∧ isIdle last = true

theorem steps_of_text_eq_nil (h : p.text = []) : p.steps = [] := by
  rw [steps, segments, h]
  rfl

theorem segments_of_steps_append {rest : List Bytes} (h : p.steps = init ++ last :: rest) :
    ∃ before behind, p.segments = before ++ last :: behind ∧
      (before.filter fun s => !isIdle s) = init ∧ (behind.filter fun s => !isIdle s) = rest := by
  obtain ⟨before, tail, e, hb, ht⟩ := List.filter_eq_append_iff.mp h
  obtain ⟨skipped, behind, rfl, idle, busy, hr⟩ := List.filter_eq_cons_iff.mp ht
  refine ⟨before ++ skipped, behind, by simp [e], ?_, hr⟩
  rw [List.filter_append, hb, List.filter_eq_nil_iff.mpr idle, List.append_nil]

theorem segments_of_steps (h : p.steps = init ++ [last]) : ∃ before idles,
    p.segments = before ++ last :: idles ∧ (∀ s ∈ idles, isIdle s = true) ∧
      (before.filter fun s => !isIdle s) = init := by
  obtain ⟨before, idles, e, hb, hi⟩ := segments_of_steps_append h
  exact ⟨before, idles, e, fun s hs => by simpa using List.filter_eq_nil_iff.mp hi s hs, hb⟩

end Path

namespace Disk

variable {d d' : Disk} {p : Path} {loc own : Location} {node : Node}

/-- The last name of a path sits at a location: the steps before it lead to the directory. -/
def Seats (d : Disk) (p : Path) (loc : Location) : Prop :=
  ∃ init, ∃ name : Name, ∃ dir, p.steps = init ++ [name.bytes] ∧ d.IsDirectory dir ∧
    (∃ links ≤ maxLinks, d.Leads (startOf d.here p.text) init links dir) ∧ loc = dir ++ [name]

theorem Seats.unique {loc' : Location} (h : d.Seats p loc) (h' : d.Seats p loc') :
    loc = loc' := by
  obtain ⟨init, name, dir, hs, -, ⟨_, -, w⟩, rfl⟩ := h
  obtain ⟨init', name', dir', hs', -, ⟨_, -, w'⟩, rfl⟩ := h'
  obtain ⟨rfl, e⟩ := List.append_inj' (hs.symm.trans hs') rfl
  obtain rfl : name = name' := Name.bytes_injective (by simpa using e)
  rw [w.unique w']

theorem Seats.reaches (h : d.Seats p loc) (spelled : checkText p = .ok ())
    (isDir : d.IsDirectory loc) : d.Reaches p loc := by
  obtain ⟨init, name, dir, steps, -, ⟨links, le, way⟩, rfl⟩ := h
  obtain ⟨ne, zero, -⟩ := of_checkText spelled
  have last : d.Leads dir [name.bytes] 0 (dir ++ [name]) := .name isDir rfl (.done _)
  have whole := way.append last
  rw [← steps] at whole
  exact ⟨ne, zero, links, le, (leads_filter_iff p.segments isDir []).mp whole⟩

theorem seats_of_leads {before idles : List Bytes} {name : Name} {dir : Location} {links : Nat}
    (segments : p.segments = before ++ name.bytes :: idles)
    (hi : ∀ s ∈ idles, Path.isIdle s = true) (isDir : d.IsDirectory dir) (le : links ≤ maxLinks)
    (w : d.Leads (startOf d.here p.text) before links dir) : d.Seats p (dir ++ [name]) := by
  refine ⟨before.filter fun s => !Path.isIdle s, name, dir, ?_, isDir, ⟨links, le, ?_⟩, rfl⟩
  · have none : idles.filter (fun s => !Path.isIdle s) = [] :=
      List.filter_eq_nil_iff.mpr fun s hs => by simp [hi s hs]
    rw [Path.steps, segments, List.filter_append, List.filter_cons_of_pos (by simp), none]
  · exact (leads_filter_iff before isDir []).mpr w

theorem seats_of_resolveLast {dir : Location} {name : Name} {closed : Bool} (sub : d'.Within d)
    (h : d'.resolveLast p = .ok (.name dir name closed)) : d.Seats p (dir ++ [name]) := by
  obtain ⟨-, -, -, init, closing, segments, hc, isDir, links, le, w⟩ := of_resolveLast_name h
  have start : d'.here = d.here := sub.1.symm
  refine seats_of_leads segments (fun s hs => ?_) (sub.isDirectory isDir) le
    (start ▸ w.mono sub)
  rw [hc s hs]
  rfl

/-- An entry that a path names is the one where its last name sits, or the path is closed and that
one is a link to it. -/
theorem own_cases {init : List Bytes} {last : Bytes} (steps : p.steps = init ++ [last])
    (up : last ≠ Path.dotDot) (h : d.resolve p false = .ok (.entry own)) :
    ∃ seat, d.Seats p seat ∧ (own = seat ∨
      p.IsClosed ∧ d.IsDirectory own ∧ d.Reaches p own ∧
        ∃ target, d.get? seat = some (.link target)) := by
  obtain ⟨text, hw⟩ := resolve_eq_ok_iff.mp h
  obtain ⟨ne, zero, short⟩ := of_checkText text
  obtain ⟨before, idles, segments, hi, hb⟩ := Path.segments_of_steps steps
  have busy : Path.isIdle last = false := by
    have : last ∈ p.steps := by simp [steps]
    simpa using (List.mem_filter.mp this).2
  rcases List.eq_nil_or_concat idles with rfl | ⟨front, idle, rfl⟩
  · rw [segments] at hw
    obtain ⟨links, le, mid, w, dir, own⟩ := walkTo_own_iff.mp hw
    rcases own with ⟨idle, -⟩ | ⟨e, -⟩ | ⟨name, rfl, rfl, -⟩
    · rw [busy] at idle
      cases idle
    · exact absurd e up
    · exact ⟨_, seats_of_leads segments hi dir le w, .inl rfl⟩
  · have closed : p.segments = (before ++ last :: front) ++ [idle] := by simp [segments]
    have isIdle : Path.isIdle idle = true := hi idle (by simp)
    rw [closed] at hw
    obtain ⟨links, le, mid, w, dir, ownStep⟩ := walkTo_own_iff.mp hw
    obtain rfl : own = mid := by
      rcases ownStep with ⟨-, e⟩ | ⟨e, -⟩ | ⟨name, e, -⟩
      · exact e
      · rw [e, isIdle_dotDot] at isIdle
        cases isIdle
      · rw [e, name.isIdle_bytes] at isIdle
        cases isIdle
    have reach : d.Reaches p own := by
      refine ⟨ne, zero, links, le, ?_⟩
      rw [closed]
      exact (leads_concat_idle_iff isIdle).mpr ⟨w, dir⟩
    obtain ⟨mid, near, far, hn, hf, rfl⟩ := w.split rfl
    have few : near ≤ maxLinks := by omega
    have isDir := hf.isDirectory (by simp)
    cases hf with
    | idle _ idle _ =>
      rw [busy] at idle
      cases idle
    | up => exact absurd rfl up
    | @name _ _ name _ _ _ hg plain rest =>
      have none : front.filter (fun s => !Path.isIdle s) = [] :=
        List.filter_eq_nil_iff.mpr fun s hs => by simp [hi s (by simp [hs])]
      have onlyIdle := (leads_filter_iff front dir []).mpr rest
      rw [none] at onlyIdle
      cases onlyIdle
      exact ⟨_, seats_of_leads segments hi isDir few hn, .inl rfl⟩
    | @link _ _ name target _ _ hg rest =>
      exact ⟨_, seats_of_leads segments hi isDir few hn, .inr
        ⟨⟨_, _, closed, isIdle⟩, dir, reach, target, hg⟩⟩

end Disk
end LayeredTree
