import FrameLang.Machine
import FrameLang.Proofs.Lowering.Registers
import FrameLang.Proofs.Lowering.Relabelling

/-!
# Built programs

A build makes code, relabels shadowed definitions and encodes the result. Behind it, every statement
of the program is found again at the place that the layout says: lines unchanged, and definitions
unchanged up to their entry.

## Main definitions

* `Program.labelsDrawn` — the number of labels that a build draws.
* `Line.PlacedAt`, `FnDef.PlacedAt` — the code of a statement stands at a place.
-/

namespace FrameLang

/-- The code of a listing. -/
def Listing.code (listing : Listing) : List Instr :=
  listing.operations.map Operation.decode

@[simp] theorem Listing.code_ofInstrs (code : List Instr) (result : Option Register) :
    (Listing.ofInstrs code result).code = code := by
  simp [Listing.code, Listing.ofInstrs, Function.comp_def]

/-- The number of labels that building a program draws, those for shadowed definitions included. -/
def Program.labelsDrawn (p : Program) : Nat :=
  match (Program.lower none p).run {} with
  | .ok ((code, _), a) => a.labels + shadowed code
  | .error _ => 0

/-- What a successful build has done. -/
theorem Program.build_eq_ok {p : Program} {checkArity : Bool} {listing : Listing}
    (h : p.build checkArity = .ok listing) :
    ∃ code result a, (Program.lower none p).run {} = .ok ((code, result), a) ∧
      p.labelsDrawn = a.labels + shadowed code ∧ (checkArity = true → p.callError? = none) ∧
      listing = .ofInstrs (relabelShadowed a.labels code) result := by
  unfold Program.build at h
  cases hl : (Program.lower none p).run {} with
  | error e => simp [hl, bind, Except.bind] at h
  | ok r =>
    obtain ⟨⟨code, result⟩, a⟩ := r
    simp only [hl, bind, Except.bind] at h
    refine ⟨code, result, a, rfl, by simp [Program.labelsDrawn, hl], ?_⟩
    cases checkArity with
    | false => simpa using h.symm
    | true =>
      cases hc : p.callError? with
      | some e => simp [hc] at h
      | none => simpa [hc] using h.symm

/-- A listing passes the check of its operations exactly if all registers exist and no label is
placed twice. -/
theorem firstLoadError_eq_none {ops : List Operation} {index : Nat} {seen : List Label} :
    firstLoadError index seen ops = none ↔ (∀ op ∈ ops, op.inRange = true) ∧
      ∀ l, placed l (ops.map Operation.decode) ≤ if l ∈ seen then 0 else 1 := by
  induction ops generalizing index seen with
  | nil => simp [firstLoadError]
  | cons op rest ih =>
    by_cases hr : op.inRange = true
    · cases hd : op.decode with
      | label l =>
        by_cases hs : l ∈ seen
        · simp only [firstLoadError, hr, hd, hs, if_true, reduceCtorEq, false_iff, not_and]
          exact fun _ h => absurd (h l) (by simp [hd, hs, placed_cons])
        · have hstep (m : Label) : (placed m (rest.map Operation.decode) ≤
              if m ∈ l :: seen then 0 else 1) ↔
              placed m ((op :: rest).map Operation.decode) ≤ if m ∈ seen then 0 else 1 := by
            by_cases hm : m = l
            · subst hm
              simp [hd, hs, placed_cons]
            · simp [hd, hm, Ne.symm hm, placed_cons]
          simp only [firstLoadError, hr, hd, hs, if_true, if_false, ih, hstep, List.forall_mem_cons,
            true_and]
      | _ => simp [firstLoadError, hr, hd, ih, placed_cons]
    · simp [firstLoadError, hr]

/-- A listing can be loaded if its registers exist and no label is placed twice. -/
theorem Listing.load_eq_ok {listing : Listing} (hr : ∀ op ∈ listing.operations, op.inRange = true)
    (hl : ∀ l, placed l listing.code ≤ 1) (hres : ∀ r ∈ listing.result.toList, r.inRange = true) :
    listing.load = .ok ⟨listing.code.toArray, listing.result⟩ := by
  have hnone : firstLoadError 0 [] listing.operations = none :=
    firstLoadError_eq_none.2 ⟨hr, by simpa [Listing.code] using hl⟩
  unfold Listing.load
  rw [hnone]
  cases h : listing.result with
  | none => simp [Listing.code]
  | some r => simp [Listing.code, hres r (by simp [h])]

/-! ## Definitions -/

theorem Program.function?_cons (st : Statement) (p : Program) (x : Text) :
    Program.function? (st :: p) x = (p.function? x).or
      (match st with
        | .fn f => if f.name = x then some f else none
        | .line _ => none) := by
  cases st with
  | fn f =>
    simp only [Program.function?, Program.functions, List.filterMap_cons, List.reverse_cons,
      List.find?_append]
    congr 1
    by_cases h : f.name = x <;> simp [h]
  | line l => simp [Program.function?, Program.functions]

theorem Program.function?_eq_none {p : Program} {x : Text} :
    p.function? x = none ↔ ¬ p.Defines x := by
  induction p with
  | nil => simp [Program.function?, Program.functions]
  | cons st rest ih =>
    rw [Program.function?_cons, Option.or_eq_none_iff, ih, Program.defines_cons, not_or, and_comm]
    cases st <;> simp

/-- The function that a name means is its last definition. -/
theorem Program.function?_eq_some {p : Program} {x : Text} {f : FnDef} :
    p.function? x = some f ↔ ∃ before after, p = before ++ .fn f :: after ∧ f.name = x ∧
      ¬ Program.Defines after x := by
  induction p with
  | nil => simp [Program.function?, Program.functions]
  | cons st rest ih =>
    rw [Program.function?_cons, Option.or_eq_some_iff, ih, Program.function?_eq_none]
    constructor
    · rintro (⟨before, after, rfl, hf, ha⟩ | ⟨hr, hst⟩)
      · exact ⟨st :: before, after, rfl, hf, ha⟩
      · cases st with
        | line l => simp at hst
        | fn g =>
          obtain ⟨hg, rfl⟩ : g.name = x ∧ g = f := by simpa using hst
          exact ⟨[], rest, rfl, hg, hr⟩
    · rintro ⟨before, after, h, hf, ha⟩
      cases before with
      | nil =>
        obtain ⟨rfl, rfl⟩ := List.cons.inj h
        exact .inr ⟨ha, by simp [hf]⟩
      | cons st' before =>
        obtain ⟨rfl, rfl⟩ := List.cons.inj h
        exact .inl ⟨before, after, rfl, hf, ha⟩

/-- A name that is defined has a last definition. -/
theorem Program.Defines.exists_last {p : Program} {x : Text} (h : p.Defines x) :
    ∃ before f after, p = before ++ .fn f :: after ∧ f.name = x ∧ ¬ Program.Defines after x := by
  cases hf : p.function? x with
  | none => exact absurd h (Program.function?_eq_none.1 hf)
  | some f =>
    obtain ⟨before, after, hp⟩ := Program.function?_eq_some.1 hf
    exact ⟨before, f, after, hp⟩

/-! ## Places of statements -/

/-- The code of a line at the top level stands in `code` from `start` on. -/
inductive Line.PlacedAt (l : Line) (code : List Instr) (start : Nat) : Prop where
  | intro {a b : Allocation} {part : List Instr} {v : Option Register} :
      Emits .top (.line l) a part v b → CodeAt code start part → l.PlacedAt code start

/-- The code of a definition, but for its entry, stands in `code` from `start` on. -/
inductive FnDef.PlacedAt (f : FnDef) (code : List Instr) (start : Nat) : Prop where
  | intro {skip : Nat} {mid inner : Allocation} {params body : List Instr} {place : Register} :
      Emits f.surroundings (.params f.params) { labels := skip + 1 } params () mid →
      Emits f.surroundings (.block none f.block) mid body (some place) inner →
      code[start]? = some (.jump (.ofNumber skip)) →
      CodeAt code (start + 2) (params ++ body ++ [.push place, .ret, .label (.ofNumber skip)]) →
      f.PlacedAt code start

/-- Code that places no name stays where it is. -/
theorem CodeAt.relabelShadowed {code part : List Instr} {start : Nat} (h : CodeAt code start part)
    (hn : ∀ x, .label (.named x) ∉ part) (next : Nat) :
    CodeAt (relabelShadowed next code) start part := by
  intro k i hk
  rcases getElem?_relabelShadowed next (h k i hk) with ⟨-, hi⟩ | ⟨x, -, rfl, -⟩
  · exact hi
  · exact absurd (List.mem_of_getElem? hk) (hn x)

namespace Program.Emits

variable {before after : Program} {st : Statement} {a b : Allocation} {code : List Instr}
  {result final : Option Register}

/-- The code of a program splits around the code of a statement. -/
theorem split (h : Program.Emits result (before ++ st :: after) a code final b) :
    ∃ pre part post middle v mid mid', code = pre ++ part ++ post ∧
      CodeAt code before.codeLength part ∧ Program.Emits result before a pre middle mid ∧
      st.Emits mid part v mid' ∧ Program.Emits (v.or middle) after mid' post final b := by
  obtain ⟨pre, rest, middle, mid, rfl, hb, hr⟩ := h.append_inv
  cases hr with
  | @cons _ _ v _ _ _ mid' _ part post hs ha =>
    have hc := codeAt_self pre part post
    rw [hb.length_eq, List.append_assoc] at hc
    exact ⟨pre, part, post, middle, v, mid, mid', (List.append_assoc _ _ _).symm, hc, hb, hs, ha⟩

theorem line_placedAt {l : Line}
    (h : Program.Emits result (before ++ .line l :: after) a code final b) (next : Nat) :
    l.PlacedAt (relabelShadowed next code) before.codeLength := by
  obtain ⟨pre, part, post, _, _, _, _, -, hc, -, hs, -⟩ := h.split
  cases hs with
  | line hl => exact .intro hl (hc.relabelShadowed (fun x => (hl.notMem x 0).2.1) next)

theorem fn_placedAt {f : FnDef}
    (h : Program.Emits result (before ++ .fn f :: after) a code final b) (next : Nat) :
    f.PlacedAt (relabelShadowed next code) before.codeLength := by
  obtain ⟨pre, part, post, _, _, mid, _, -, hc, -, hs, -⟩ := h.split
  cases hs with
  | @fn _ _ _ _ params body place hp hb =>
    rw [List.append_assoc, codeAt_append] at hc
    have hj : CodeAt code before.codeLength [.jump (.ofNumber mid.labels)] := by
      simpa using (codeAt_cons.1 hc.1).1
    have hbody : CodeAt code (before.codeLength + 2)
        (params ++ body ++ [.push place, .ret, .label (.ofNumber mid.labels)]) := by
      simpa using hc.2
    refine .intro hp hb (codeAt_cons.1 (hj.relabelShadowed (by simp) next)).1
      (hbody.relabelShadowed (fun x => ?_) next)
    simp [(hp.notMem x 0).2.1, (hb.notMem x 0).2.1]

/-- The entry of a definition, and whether the name is placed again behind it. -/
theorem entry_at {f : FnDef}
    (h : Program.Emits result (before ++ .fn f :: after) a code final b) :
    code[before.codeLength + 1]? = some (.label (.named f.name)) ∧
      (.label (.named f.name) ∈ code.drop (before.codeLength + 1 + 1) ↔
        Program.Defines after f.name) := by
  obtain ⟨pre, part, post, _, _, mid, _, rfl, hc, hb, hs, ha⟩ := h.split
  cases hs with
  | @fn _ _ _ _ params body place hp hbody =>
    refine ⟨hc 1 _ rfl, ?_⟩
    have hdrop : List.drop (before.codeLength + 1 + 1) (pre ++ ([.jump (.ofNumber mid.labels),
        .label (.named f.name)] ++ (params ++ body ++ [.push place, .ret]) ++
        [.label (.ofNumber mid.labels)]) ++ post) =
        params ++ body ++ [.push place, .ret] ++ [.label (.ofNumber mid.labels)] ++ post := by
      rw [← hb.length_eq, Nat.add_assoc, List.append_assoc, List.drop_append]
      simp
    rw [hdrop, ← ha.named_mem]
    simp [(hp.notMem f.name 0).2.1, (hbody.notMem f.name 0).2.1]

end Program.Emits

/-! ## Linked code -/

/-- What the code of a built program satisfies, statement by statement. A statement that follows
`before` starts at the place `before.codeLength`. -/
structure Linked (p : Program) (code : List Instr) : Prop where
  length : code.length = p.codeLength
  /-- No label is placed twice. -/
  placed_le (l : Label) : placed l code ≤ 1
  line {before after : Program} {l : Line} : p = before ++ .line l :: after →
    l.PlacedAt code before.codeLength
  fn {before after : Program} {f : FnDef} : p = before ++ .fn f :: after →
    f.PlacedAt code before.codeLength
  entry {before after : Program} {f : FnDef} : p = before ++ .fn f :: after →
    ∃ l, code[before.codeLength + 1]? = some (.label l)
  /-- The last definition of a name keeps it as its entry. -/
  kept {before after : Program} {f : FnDef} : p = before ++ .fn f :: after →
    ¬ after.Defines f.name → code[before.codeLength + 1]? = some (.label (.named f.name))
  /-- No other names are placed than those that are defined. -/
  named {x : Text} : .label (.named x) ∈ code → p.Defines x
  /-- Calls go to names. -/
  calls {l : Label} : .call l ∈ code → ∃ x, l = .named x

namespace Program.Emits

variable {p : Program} {a : Allocation} {code : List Instr} {result final : Option Register}

/-- No label is placed twice in relabelled code. -/
theorem placed_relabelShadowed_le (h : Program.Emits result p {} code final a)
    (hl : a.labels + shadowed code < 2 ^ 32) (l : Label) :
    placed l (relabelShadowed a.labels code) ≤ 1 := by
  cases l with
  | named x =>
    rw [placed_named_relabelShadowed]
    split <;> omega
  | numbered n =>
    have hn : Label.numbered n = .ofNumber n.toNat := by simp [Label.ofNumber]
    have ha : a.labels ≤ 2 ^ 32 := by omega
    rw [hn, placed_ofNumber_relabelShadowed n.toNat_lt (by omega),
      h.placed_ofNumber ha n.toNat_lt, ← drawn_split _ (Nat.zero_le _) (Nat.le_add_right _ _)]
    unfold drawn
    split <;> omega

/-- Relabelling makes linked code. -/
theorem linked (h : Program.Emits result p {} code final a)
    (hl : a.labels + shadowed code < 2 ^ 32) : Linked p (relabelShadowed a.labels code) where
  length := by simp [h.length_eq]
  placed_le := h.placed_relabelShadowed_le hl
  line := by
    rintro before after l rfl
    exact h.line_placedAt _
  fn := by
    rintro before after f rfl
    exact h.fn_placedAt _
  entry := by
    rintro before after f rfl
    rcases getElem?_relabelShadowed a.labels h.entry_at.1 with ⟨-, hi⟩ | ⟨_, _, -, -, -, -, hi⟩
    · exact ⟨_, hi⟩
    · exact ⟨_, hi⟩
  kept := by
    rintro before after f rfl hlast
    obtain ⟨hentry, hdrop⟩ := h.entry_at
    rcases getElem?_relabelShadowed a.labels hentry with ⟨-, hi⟩ | ⟨x, _, hx, hmem, -⟩
    · exact hi
    · cases hx
      exact absurd (hdrop.1 hmem) hlast
  named := by
    intro x hx
    rw [← h.named_mem, ← placed_pos]
    rw [← placed_pos, placed_named_relabelShadowed] at hx
    by_cases hc : .label (.named x) ∈ code
    · exact (placed_pos _).2 hc
    · simp [hc] at hx
  calls := by
    intro l hmem
    cases l with
    | named x => exact ⟨x, rfl⟩
    | numbered n =>
      rcases mem_relabelShadowed hmem with hmem | ⟨_, hlabel⟩
      · exact absurd hmem (h.call_numbered_notMem n)
      · cases hlabel

end Program.Emits

theorem Program.exists_listing {p : Program} {checkArity : Bool}
    (h : (p.build checkArity).isOk = true) : ∃ listing, p.build checkArity = .ok listing := by
  cases hb : p.build checkArity with
  | error e => simp [hb, Except.isOk, Except.toBool] at h
  | ok listing => exact ⟨listing, rfl⟩

/-- A build that succeeds gives linked code. -/
theorem Program.build_linked {p : Program} {checkArity : Bool} {listing : Listing}
    (h : p.build checkArity = .ok listing) (hl : p.labelsDrawn < 2 ^ 32) :
    Linked p listing.code := by
  obtain ⟨code, result, a, hlower, hd, -, rfl⟩ := Program.build_eq_ok h
  rw [Listing.code_ofInstrs]
  exact (Program.lower_emits hlower).linked (hd ▸ hl)

/-- A build that succeeds gives a listing whose registers all exist. -/
theorem Program.build_inRange {p : Program} {checkArity : Bool} {listing : Listing}
    (h : p.build checkArity = .ok listing) :
    (∀ op ∈ listing.operations, op.inRange = true) ∧
      ∀ r ∈ listing.result.toList, r.inRange = true := by
  obtain ⟨code, result, a, hlower, -, -, rfl⟩ := Program.build_eq_ok h
  obtain ⟨hc, hr⟩ := (Program.lower_emits hlower).inRange (Allocation.valid_empty 0) nofun
  refine ⟨fun op hop => ?_, hr⟩
  obtain ⟨i, hi, rfl⟩ := List.mem_map.1 hop
  refine Instr.encode_inRange fun r hr => ?_
  rcases mem_relabelShadowed hi with hi | ⟨m, rfl⟩
  · exact hc i hi r hr
  · cases hr

/-- A build that succeeds gives a listing that can be loaded. -/
theorem Program.build_load {p : Program} {checkArity : Bool} {listing : Listing}
    (h : p.build checkArity = .ok listing) (hl : p.labelsDrawn < 2 ^ 32) :
    listing.load = .ok ⟨listing.code.toArray, listing.result⟩ :=
  have hr := Program.build_inRange h
  Listing.load_eq_ok hr.1 (Program.build_linked h hl).placed_le hr.2

/-- A program for the examples: a call in front of the definition, a function that is defined again
with more parameters, a recursive one, and a loop that is left from an argument of a call. -/
def Program.sample : Program :=
  let add (x y : Expr) : Expr := .call .start "add".toList [x, y]
  let sum (n acc : Expr) : Expr := .call .start "sum".toList [n, acc]
  let name (x : String) : Expr := .name .start x.toList
  let int (n : Int32) : Expr := .int .start n
  let expr (e : Expr) : Line := .expr .start e
  [.line (expr (.assign .start "t".toList (sum (add (int 2) (int 1)) (int 0)))),
    .fn ⟨.start, "add".toList, ["x".toList], [expr (name "x")]⟩,
    .fn ⟨.start, "add".toList, ["x".toList, "y".toList],
      [expr (.binary .start .add (name "x") (name "y"))]⟩,
    .fn ⟨.start, "sum".toList, ["n".toList, "acc".toList],
      [expr (.branch .start (.binary .start .eq (name "n") (int 0)) [expr (name "acc")]
        (some [expr (sum (.binary .start .sub (name "n") (int 1))
          (.binary .start .add (name "acc") (name "n")))]))]⟩,
    .line (.loop .start [expr (.assign .start "t".toList (add (name "t")
      (.branch .start (.binary .start .eq (name "t") (int 9)) [.brk .start]
        (some [expr (int 3)]))))]),
    .line (expr (name "t"))]

end FrameLang
