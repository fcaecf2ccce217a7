import FrameLang.Proofs.Outline.Headings

/-!
# Outlines as trees

The lines of an outline are those of a tree: a node stands before the nodes below it, and these are
indented by one level more. The levels alone tell which nodes are below which, so a tree is known by
its rows, and rows with legible headings are known by their text.

## Main definitions

* `OutlineNode`, `OutlineNode.rows` — a node with all that is below it, and its rows.
* `Row.line` — a row as it is shown, without its newline.
-/

namespace FrameLang

/-- A heading on a level. -/
@[ext]
structure Row where
  depth : Nat
  heading : Heading

/-- A heading with the nodes below it. -/
inductive OutlineNode where
  | node (heading : Heading) (below : List OutlineNode)

mutual

/-- The rows of a node at a level. -/
def OutlineNode.rows (depth : Nat) : OutlineNode → List Row
  | .node heading below => ⟨depth, heading⟩ :: OutlineNode.allRows (depth + 1) below

/-- The rows of several nodes at a level. -/
def OutlineNode.allRows (depth : Nat) : List OutlineNode → List Row
  | [] => []
  | x :: rest => x.rows depth ++ OutlineNode.allRows depth rest

end

/-! ## Rows determine trees -/

/-- What follows is above the level. -/
def LeavesLevel (depth : Nat) (rows : List Row) : Prop :=
  ∀ row ∈ rows.head?, row.depth < depth

theorem leavesLevel_nil (depth : Nat) : LeavesLevel depth [] := nofun

theorem LeavesLevel.of_rows {depth : Nat} (xs : List OutlineNode) {rows : List Row}
    (h : LeavesLevel depth rows) :
    LeavesLevel (depth + 1) (OutlineNode.allRows depth xs ++ rows) := by
  cases xs with
  | nil => exact fun row hrow => Nat.lt_succ_of_lt (h row hrow)
  | cons x rest =>
    cases x
    rintro _ ⟨⟩
    exact Nat.lt_succ_self depth

mutual

/-- The rows of a node end where its level is reached again. -/
theorem OutlineNode.rows_append_inj {depth : Nat} {after after' : List Row} :
    (x y : OutlineNode) → LeavesLevel (depth + 1) after → LeavesLevel (depth + 1) after' →
      x.rows depth ++ after = y.rows depth ++ after' → x = y ∧ after = after'
  | .node heading xs, .node heading' ys, hx, hy, h => by
    simp only [rows, List.cons_append, List.cons.injEq, Row.mk.injEq, true_and] at h
    obtain ⟨rfl, hbelow⟩ := h
    obtain ⟨rfl, hafter⟩ := OutlineNode.allRows_append_inj xs ys hx hy hbelow
    exact ⟨rfl, hafter⟩

/-- The rows of several nodes end where their level is left. -/
theorem OutlineNode.allRows_append_inj {depth : Nat} {after after' : List Row} :
    (xs ys : List OutlineNode) → LeavesLevel depth after → LeavesLevel depth after' →
      OutlineNode.allRows depth xs ++ after = OutlineNode.allRows depth ys ++ after' →
      xs = ys ∧ after = after'
  | [], [], _, _, h => ⟨rfl, h⟩
  | [], .node .. :: _, hx, _, h => by
    rw [show after = _ from h] at hx
    exact absurd (hx _ rfl) (Nat.lt_irrefl depth)
  | .node .. :: _, [], _, hy, h => by
    rw [show after' = _ from h.symm] at hy
    exact absurd (hy _ rfl) (Nat.lt_irrefl depth)
  | x :: xs, y :: ys, hx, hy, h => by
    simp only [allRows, List.append_assoc] at h
    obtain ⟨rfl, hrest⟩ := OutlineNode.rows_append_inj x y (hx.of_rows xs) (hy.of_rows ys) h
    obtain ⟨rfl, hafter⟩ := OutlineNode.allRows_append_inj xs ys hx hy hrest
    exact ⟨rfl, hafter⟩

end

/-- A tree is known by its rows. -/
theorem OutlineNode.rows_injective (depth : Nat) :
    Function.Injective (OutlineNode.rows depth) := by
  intro x y h
  have happend : x.rows depth ++ [] = y.rows depth ++ [] := by rw [h]
  exact (OutlineNode.rows_append_inj x y (leavesLevel_nil _) (leavesLevel_nil _) happend).1

/-! ## Text determines rows -/

namespace Row

variable {i j : Row} {rows rows' : List Row}

/-- A row as an entry of an outline. -/
def entry (row : Row) : Entry :=
  FrameLang.heading row.depth row.heading.text

/-- The line of a row, without its newline. -/
def line (row : Row) : Text :=
  List.replicate (2 * row.depth) ' ' ++ row.heading.text

theorem render_entry (row : Row) : row.entry.render = row.line ++ ['\n'] := by
  simp [entry, line, Entry.render, FrameLang.heading]

theorem newline_notMem_line (h : i.heading.IsLegible) : '\n' ∉ i.line := by
  simp [line, h.newline_notMem_text]

/-- The level of a row is half of its indentation, for headings do not start with a space. -/
theorem eq_of_line (hi : i.heading.IsLegible) (hj : j.heading.IsLegible) (h : i.line = j.line) :
    i = j := by
  have hsplit (row : Row) :
      row.line.takeWhile (· = ' ') = List.replicate (2 * row.depth) ' ' ∧
        row.line.dropWhile (· = ' ') = row.heading.text :=
    takeWhile_run (fun c hc => decide_eq_true (List.eq_of_mem_replicate hc))
      fun c hc => decide_eq_false (row.heading.head?_text c hc)
  have hspaces := congrArg List.length ((hsplit i).1.symm.trans (h ▸ (hsplit j).1))
  have htext := (hsplit i).2.symm.trans (h ▸ (hsplit j).2)
  rw [List.length_replicate, List.length_replicate] at hspaces
  exact Row.ext (by omega) (Heading.eq_of_text hi hj htext)

/-- Legible rows are known by what is shown for them. -/
theorem eq_of_render (h : ∀ row ∈ rows, row.heading.IsLegible)
    (h' : ∀ row ∈ rows', row.heading.IsLegible)
    (htext : (rows.map entry).flatMap Entry.render = (rows'.map entry).flatMap Entry.render) :
    rows = rows' := by
  have hlines {rows : List Row} (h : ∀ row ∈ rows, row.heading.IsLegible) :
      ((rows.map entry).flatMap Entry.render).splitOn '\n' = rows.map line ++ [[]] := by
    have hrender : (rows.map entry).flatMap Entry.render =
        (rows.map line).flatMap (· ++ ['\n']) := by
      simp only [List.flatMap_map, render_entry]
    rw [hrender]
    exact Text.splitOn_newline
      (List.forall_mem_map.2 fun row hrow => newline_notMem_line (h row hrow))
  have hmap : rows.map line = rows'.map line :=
    List.append_cancel_right ((hlines h).symm.trans (htext ▸ hlines h'))
  clear htext
  induction rows generalizing rows' with
  | nil => simpa using hmap
  | cons row rest ih =>
    cases rows' with
    | nil => cases hmap
    | cons row' rest' =>
      obtain ⟨⟨hrow, hrest⟩, hrow', hrest'⟩ :=
        And.intro (List.forall_mem_cons.1 h) (List.forall_mem_cons.1 h')
      obtain ⟨hline, hmap⟩ := List.cons.inj hmap
      rw [eq_of_line hrow hrow' hline, ih hrest hrest' hmap]

end Row

end FrameLang
