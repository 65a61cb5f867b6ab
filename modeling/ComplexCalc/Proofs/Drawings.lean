import ComplexCalc.Expr.Drawing
import ComplexCalc.Proofs.Names
import ComplexCalc.Proofs.SessionInput
import ComplexCalc.Proofs.ShownNumbers

/-!
# Drawings — a drawing has a line for each node, and determines the tree

The line of a node is its label, behind branches that take four characters for each step from the top (section 1).
Nothing in a label can be taken for a branch or for the end of a line, and no label is that of another kind of node
(section 2).  So the lines of a drawing give the labels in prefix order, and these leave no choice of the tree
(section 3).
-/

namespace ComplexCalc

/-! ## 1. The line of a node -/

/-- A tree that has the text of each literal in its place. -/
inductive Shown where
  | lit (text : String)
  | var (x : String)
  | binary (op : Operator) (left right : Shown)
  | call (f : Builtin) (argument : Shown)
deriving DecidableEq

/-- A node with the steps to it from the top, `true` for a step to the last operand. -/
structure Node where
  path : List Bool
  tree : Expr

namespace Expr

def shown : Expr → Shown
  | .lit value => .lit value.text
  | .var x => .var x
  | .binary op left right => .binary op left.shown right.shown
  | .call f argument => .call f argument.shown

/-- The nodes in prefix order, where `path` leads to the topmost one. -/
def nodes (path : List Bool) : Expr → List Node
  | .lit value => [⟨path, .lit value⟩]
  | .var x => [⟨path, .var x⟩]
  | .binary op left right =>
    ⟨path, .binary op left right⟩ :: (left.nodes (path ++ [false]) ++ right.nodes (path ++ [true]))
  | .call f argument => ⟨path, .call f argument⟩ :: argument.nodes (path ++ [true])

end Expr

namespace Node

/-- The branch that ends at a node. -/
def arm (last : Bool) : String :=
  if last then "└── " else "├── "

/-- What stands under the branch that ends at a node. -/
def gap (last : Bool) : String :=
  if last then "    " else "│   "

/-- What stands in front of every line below the node that the path leads to. -/
def margin (path : List Bool) : String :=
  String.join (path.map gap)

/-- What stands in front of the label of a node. -/
def stem (n : Node) : String :=
  margin n.path.dropLast ++ String.join (n.path.getLast?.toList.map arm)

def line (n : Node) : String :=
  n.stem ++ n.tree.label

theorem margin_concat (path : List Bool) (last : Bool) : margin (path ++ [last]) = margin path ++ gap last := by
  rw [margin, List.map_append, String.join_append, List.map_singleton, String.join_cons, String.join_nil,
    String.append_empty, margin]

theorem line_step (path : List Bool) (last : Bool) (e : Expr) :
    line ⟨path ++ [last], e⟩ = margin path ++ arm last ++ e.label := by
  simp only [line, stem, List.dropLast_concat, List.getLast?_concat, Option.toList_some, List.map_singleton,
    String.join_cons, String.join_nil, String.append_empty]

theorem line_congr {e f : Expr} (path : List Bool) (h : e.label = f.label) : line ⟨path, e⟩ = line ⟨path, f⟩ :=
  congrArg (stem ⟨path, e⟩ ++ ·) h

/-- Only these characters are drawn. -/
def isBranch (c : Char) : Bool :=
  c ∈ [' ', '│', '├', '└', '─']

theorem isBranch_join {piece : Bool → String} (h : ∀ last, ∀ c ∈ (piece last).toList, isBranch c = true)
    (path : List Bool) : ∀ c ∈ (String.join (path.map piece)).toList, isBranch c = true := by
  intro c hc
  rw [String.toList_join, List.mem_flatMap] at hc
  obtain ⟨text, htext, hc⟩ := hc
  obtain ⟨last, -, rfl⟩ := List.mem_map.mp htext
  exact h last c hc

theorem isBranch_stem (n : Node) : ∀ c ∈ n.stem.toList, isBranch c = true := by
  have hgap : ∀ last, (gap last).toList.all isBranch = true := by decide
  have harm : ∀ last, (arm last).toList.all isBranch = true := by decide
  rw [stem, margin, String.toList_append]
  exact List.forall_mem_append.mpr
    ⟨isBranch_join (fun last => List.all_eq_true.mp (hgap last)) _,
      isBranch_join (fun last => List.all_eq_true.mp (harm last)) _⟩

theorem length_margin (path : List Bool) : (margin path).length = 4 * path.length := by
  induction path with
  | nil => rfl
  | cons last path ih =>
    have hgap : (gap last).length = 4 := by cases last <;> rfl
    rw [margin, List.map_cons, String.join_cons, String.length_append, hgap, ← margin, ih, List.length_cons]
    omega

theorem length_stem (n : Node) : n.stem.length = 4 * n.path.length := by
  obtain ⟨path, e⟩ := n
  rcases List.eq_nil_or_concat path with rfl | ⟨path, last, rfl⟩
  · rfl
  · have harm : (arm last).length = 4 := by cases last <;> rfl
    rw [List.concat_eq_append, List.length_append, List.length_singleton]
    simp only [stem, List.dropLast_concat, List.getLast?_concat, Option.toList_some, List.map_singleton,
      String.join_cons, String.join_nil, String.append_empty, String.length_append, length_margin, harm]
    omega

end Node

theorem Expr.map_line_nodes (e : Expr) (path : List Bool) :
    (e.nodes path).map Node.line = Node.line ⟨path, e⟩ :: e.branches (Node.margin path) := by
  induction e generalizing path with
  | lit value => rfl
  | var x => rfl
  | binary op a b iha ihb =>
    rw [nodes, List.map_cons, List.map_append, iha, ihb, Node.line_step, Node.line_step, Node.margin_concat,
      Node.margin_concat, branches]
    rfl
  | call f a ih =>
    rw [nodes, List.map_cons, ih, Node.line_step, Node.margin_concat, branches]
    rfl

/-- The drawing has the lines of the nodes, in their order. -/
theorem Expr.drawingLines_eq (e : Expr) : e.drawingLines = (e.nodes []).map Node.line := by
  rw [map_line_nodes]
  exact congrArg (· :: _) String.empty_append.symm

/-! ## 2. Labels -/

def isPrinting (c : Char) : Bool :=
  ' ' ≤ c && c ≤ '~'

/-- The characters that the text of a double is made of. -/
def isDoubleChar (c : Char) : Bool :=
  Token.isNumberChar c || c ∈ ['-', 'N', 'a', 'i', 'n', 'f']

/-- The characters that the text of a number is made of. -/
def isLiteralChar (c : Char) : Bool :=
  isDoubleChar c || c ∈ [' ', '+']

/-- The text starts where no branch can, and has only printing characters. -/
structure Legible (text : List Char) : Prop where
  ne_nil : text ≠ []
  starts : text.head? ≠ some ' '
  printing : text.all isPrinting = true

section
variable {e f : Expr} {c : Char}

theorem isPrinting_of_isAlphanum (h : c.isAlphanum = true) : isPrinting c = true := by
  simp only [Char.isAlphanum, Char.isAlpha, Char.isUpper, Char.isLower, Char.isDigit] at h
  simp [isPrinting, Char.le_def, UInt32.le_iff_toNat_le] at *
  omega

theorem isPrinting_of_isLiteralChar (h : isLiteralChar c = true) : isPrinting c = true := by
  have hcases : c.isDigit = true ∨ c ∈ ['.', '-', 'N', 'a', 'i', 'n', 'f', ' ', '+'] := by
    simpa [isLiteralChar, isDoubleChar, Token.isNumberChar, or_assoc] using h
  rcases hcases with hdigit | hmem
  · exact isPrinting_of_isAlphanum (by rw [Char.isAlphanum, hdigit, Bool.or_true])
  · exact List.all_eq_true.mp (by decide) c hmem

theorem text_double (x : Float) : Binary64.text x ≠ "" ∧ (Binary64.text x).toList.all isDoubleChar = true := by
  have hsign : (if Binary64.signBit x then "-" else "").toList.all isDoubleChar = true := by split <;> decide
  have hbehind : ∀ sign text : String, sign.toList.all isDoubleChar = true → text ≠ "" →
      text.toList.all isDoubleChar = true → sign ++ text ≠ "" ∧ (sign ++ text).toList.all isDoubleChar = true := by
    intro sign text hsign hne hchars
    refine ⟨fun h => hne (String.append_eq_empty_iff.mp h).2, ?_⟩
    rw [String.toList_append, List.all_append, hsign, hchars, Bool.and_true]
  rw [Binary64.text]
  split
  · exact ⟨by decide, by decide⟩
  dsimp only
  split
  · exact hbehind _ "inf" hsign (by decide) (by decide)
  · have hrun := (Decimal.numeral_chars (Decimal.shortest x.abs)).numberRun
    refine hbehind _ _ hsign ?_ (List.all_eq_true.mpr fun c hc => ?_)
    · intro hempty
      rw [Decimal.text, String.ofList_eq_empty_iff] at hempty
      rw [hempty] at hrun
      cases hrun
    · rw [Decimal.text, String.toList_ofList] at hc
      rw [isDoubleChar, hrun.all c hc, Bool.true_or]

theorem Number.isLiteralChar_text (z : Number) : z.text.toList.all isLiteralChar = true := by
  have hsign : z.signText.toList.all isLiteralChar = true := by
    rcases List.mem_pair.mp z.signText_mem with h | h <;> rw [h] <;> decide
  have hdouble : ∀ x, (Binary64.text x).toList.all isLiteralChar = true := by
    refine fun x => List.all_eq_true.mpr fun c hc => ?_
    rw [isLiteralChar, List.all_eq_true.mp (text_double x).2 c hc, Bool.true_or]
  have hspace : " ".toList.all isLiteralChar = true := by decide
  have hunit : "i".toList.all isLiteralChar = true := by decide
  rw [text_eq]
  simp only [String.toList_append, List.all_append, hdouble, hsign, hspace, hunit, Bool.and_self]

theorem Number.legible_text (z : Number) : Legible z.text.toList := by
  obtain ⟨hne, hchars⟩ := text_double (fourPlaces z.re)
  have hprinting := List.all_eq_true.mpr fun c hc =>
    isPrinting_of_isLiteralChar (List.all_eq_true.mp z.isLiteralChar_text c hc)
  cases htext : (Binary64.text (fourPlaces z.re)).toList with
  | nil => exact absurd (String.toList_eq_nil_iff.mp htext) hne
  | cons c cs =>
    have hhead : ∃ rest, z.text.toList = c :: rest := by
      simp only [text_eq, String.toList_append, htext, List.cons_append]
      exact ⟨_, rfl⟩
    obtain ⟨rest, hrest⟩ := hhead
    refine ⟨by rw [hrest]; exact List.cons_ne_nil c rest, ?_, hprinting⟩
    rw [hrest, List.head?_cons]
    rintro ⟨⟩
    rw [htext] at hchars
    exact absurd (List.all_eq_true.mp hchars ' ' List.mem_cons_self) (by decide)

theorem legible_symbol (op : Operator) : Legible op.symbol.toList := by
  cases op <;> exact ⟨by decide, by decide, by decide⟩

theorem legible_name (f : Builtin) : Legible f.name.toList := by
  cases f <;> exact ⟨by decide, by decide, by decide⟩

theorem Expr.Readable.legible_label (h : e.Readable) : Legible e.label.toList := by
  cases e with
  | lit z => exact z.legible_text
  | var x =>
    have hletters := (isName_of_spelledBy h).word.isAlphanum
    rw [label, String.toList_append]
    refine ⟨List.cons_ne_nil 'V' _, ?_, ?_⟩
    · show some 'V' ≠ some ' '
      decide
    · rw [List.all_append, Bool.and_eq_true]
      exact ⟨by decide, List.all_eq_true.mpr fun c hc => isPrinting_of_isAlphanum (hletters c hc)⟩
  | binary op _ _ => exact legible_symbol op
  | call f _ => exact legible_name f

/-- A node of a tree that can be read can be read itself. -/
theorem Expr.Readable.of_mem_nodes {path : List Bool} (h : e.Readable) {n : Node} (hn : n ∈ e.nodes path) :
    n.tree.Readable := by
  induction e generalizing path with
  | lit z => rwa [List.mem_singleton.mp hn]
  | var x => rwa [List.mem_singleton.mp hn]
  | binary op a b iha ihb =>
    rcases List.mem_cons.mp hn with rfl | hn
    · exact h
    · rcases List.mem_append.mp hn with hn | hn
      · exact iha h.1 hn
      · exact ihb h.2 hn
  | call g a ih =>
    rcases List.mem_cons.mp hn with rfl | hn
    · exact h
    · exact ih h hn

theorem isBranch_eq_false (h : isPrinting c = true) (hc : c ≠ ' ') : Node.isBranch c = false := by
  have hdrawn : ['│', '├', '└', '─'].all (fun c => !isPrinting c) = true := by decide
  rw [← Bool.not_eq_true]
  intro hbranch
  have hcases : c = ' ' ∨ c ∈ ['│', '├', '└', '─'] := by simpa [Node.isBranch] using hbranch
  rcases hcases with rfl | hmem
  · exact hc rfl
  · have hnot := List.all_eq_true.mp hdrawn c hmem
    rw [h] at hnot
    cases hnot

/-- The label stands behind the branches. -/
theorem Legible.dropWhile_line {n : Node} (h : Legible n.tree.label.toList) :
    n.line.toList.dropWhile Node.isBranch = n.tree.label.toList := by
  obtain ⟨hne, hstarts, hprinting⟩ := h
  rw [Node.line, String.toList_append, List.dropWhile_append_of_pos n.isBranch_stem]
  cases hlabel : n.tree.label.toList with
  | nil => exact absurd hlabel hne
  | cons c cs =>
    rw [hlabel] at hstarts hprinting
    have hc : c ≠ ' ' := fun hc => hstarts (congrArg some hc)
    have hbranch := isBranch_eq_false (List.all_eq_true.mp hprinting c List.mem_cons_self) hc
    rw [List.dropWhile_cons_of_neg (by rw [hbranch]; decide)]

theorem Legible.not_mem_line {n : Node} (h : Legible n.tree.label.toList) (hprinting : isPrinting c = false)
    (hbranch : Node.isBranch c = false) : c ∉ n.line.toList := by
  rw [Node.line, String.toList_append, List.mem_append]
  rintro (hc | hc)
  · exact Bool.false_ne_true (hbranch.symm.trans (n.isBranch_stem c hc))
  · exact Bool.false_ne_true (hprinting.symm.trans (List.all_eq_true.mp h.printing c hc))

end

inductive Kind where
  | literal
  | variable
  | operation
  | application
deriving DecidableEq

def Expr.kind : Expr → Kind
  | .lit _ => .literal
  | .var _ => .variable
  | .binary _ _ _ => .operation
  | .call _ _ => .application

/-- The kind of a node by its label: only a variable has a colon in it, else only a literal a space, and both functions
have an `o` in their names. -/
def kindOfLabel (label : List Char) : Kind :=
  if ':' ∈ label then .variable
  else if ' ' ∈ label then .literal
  else if 'o' ∈ label then .application
  else .operation

theorem kindOfLabel_label (e : Expr) : kindOfLabel e.label.toList = e.kind := by
  cases e with
  | lit z =>
    have hcolon : ':' ∉ z.text.toList := fun h => absurd (List.all_eq_true.mp z.isLiteralChar_text ':' h) (by decide)
    have hspace : ' ' ∈ z.text.toList := by
      simp only [Number.text_eq, String.toList_append, List.mem_append]
      exact .inl (.inl (.inl (.inl (.inr (by decide)))))
    rw [Expr.label, kindOfLabel, if_neg hcolon, if_pos hspace, Expr.kind]
  | var x =>
    have hcolon : ':' ∈ ("Var: " ++ x).toList := by
      rw [String.toList_append]
      exact List.mem_append_left _ (by decide)
    rw [Expr.label, kindOfLabel, if_pos hcolon, Expr.kind]
  | binary op a b =>
    show kindOfLabel op.symbol.toList = .operation
    cases op <;> decide
  | call f a =>
    show kindOfLabel f.name.toList = .application
    cases f <;> decide

theorem kind_eq_of_label_eq {e f : Expr} (h : e.label = f.label) : e.kind = f.kind := by
  rw [← kindOfLabel_label, h, kindOfLabel_label]

theorem Operator.symbol_injective {op other : Operator} (h : op.symbol = other.symbol) : op = other := by
  cases op <;> cases other <;> first | rfl | exact absurd h (by decide)

theorem Builtin.name_injective {f g : Builtin} (h : f.name = g.name) : f = g :=
  Option.some.inj ((ofName?_name f).symm.trans ((congrArg ofName? h).trans (ofName?_name g)))

/-! ## 3. Reading a drawing -/

/-- The labels of the nodes, without the branches. -/
def Expr.labels : Expr → List String
  | .lit value => [value.text]
  | .var x => ["Var: " ++ x]
  | .binary op left right => op.symbol :: (left.labels ++ right.labels)
  | .call f argument => f.name :: argument.labels

theorem Expr.map_label_nodes (e : Expr) (path : List Bool) : (e.nodes path).map (·.tree.label) = e.labels := by
  induction e generalizing path with
  | lit value => rfl
  | var x => rfl
  | binary op a b iha ihb =>
    rw [nodes, List.map_cons, List.map_append, iha, ihb]
    rfl
  | call f a ih =>
    rw [nodes, List.map_cons, ih]
    rfl

theorem Expr.labels_eq_cons (e : Expr) : ∃ below, e.labels = e.label :: below := by
  cases e <;> exact ⟨_, rfl⟩

section
variable {e f : Expr} {rest rest' : List String}

theorem kind_eq_of_labels (h : e.labels ++ rest = f.labels ++ rest') : e.kind = f.kind := by
  obtain ⟨below, he⟩ := e.labels_eq_cons
  obtain ⟨below', hf⟩ := f.labels_eq_cons
  rw [he, hf] at h
  exact kind_eq_of_label_eq (List.cons.inj h).1

/-- Two trees whose labels begin alike are shown alike, and what follows their labels is the same. -/
theorem shown_eq_of_labels (h : e.labels ++ rest = f.labels ++ rest') : e.shown = f.shown ∧ rest = rest' := by
  have hkind := kind_eq_of_labels h
  induction e generalizing f rest rest' with
  | lit z =>
    cases f with
    | lit w =>
      obtain ⟨hlabel, hrest⟩ := List.cons.inj h
      exact ⟨congrArg Shown.lit hlabel, hrest⟩
    | _ => cases hkind
  | var x =>
    cases f with
    | var y =>
      obtain ⟨hlabel, hrest⟩ := List.cons.inj h
      exact ⟨congrArg Shown.var ((String.append_right_inj "Var: ").mp hlabel), hrest⟩
    | _ => cases hkind
  | binary op a b iha ihb =>
    cases f with
    | binary other a' b' =>
      rw [Expr.labels, Expr.labels, List.cons_append, List.cons_append, List.append_assoc, List.append_assoc] at h
      obtain ⟨hlabel, hoperands⟩ := List.cons.inj h
      -- the labels of the left operand end where those of the right one begin
      obtain ⟨ha, hright⟩ := iha hoperands (kind_eq_of_labels hoperands)
      obtain ⟨hb, hrest⟩ := ihb hright (kind_eq_of_labels hright)
      rw [Operator.symbol_injective hlabel, Expr.shown, Expr.shown, ha, hb]
      exact ⟨rfl, hrest⟩
    | _ => cases hkind
  | call g a ih =>
    cases f with
    | call g' a' =>
      rw [Expr.labels, Expr.labels, List.cons_append, List.cons_append] at h
      obtain ⟨hlabel, hargument⟩ := List.cons.inj h
      obtain ⟨ha, hrest⟩ := ih hargument (kind_eq_of_labels hargument)
      rw [Builtin.name_injective hlabel, Expr.shown, Expr.shown, ha]
      exact ⟨rfl, hrest⟩
    | _ => cases hkind

/-- Trees that are shown alike have the same lines. -/
theorem map_line_nodes_congr (h : e.shown = f.shown) (path : List Bool) :
    (e.nodes path).map Node.line = (f.nodes path).map Node.line := by
  induction e generalizing f path with
  | lit z =>
    cases f with
    | lit w => exact congrArg (fun line => [line]) (Node.line_congr path (Shown.lit.inj h))
    | _ => cases h
  | var x =>
    cases f with
    | var y => exact congrArg (fun line => [line]) (Node.line_congr path (congrArg ("Var: " ++ ·) (Shown.var.inj h)))
    | _ => cases h
  | binary op a b iha ihb =>
    cases f with
    | binary other a' b' =>
      obtain ⟨rfl, ha, hb⟩ := Shown.binary.inj h
      simp only [Expr.nodes, List.map_cons, List.map_append]
      rw [iha ha, ihb hb]
      exact congrArg (· :: _) (Node.line_congr path rfl)
    | _ => cases h
  | call g a ih =>
    cases f with
    | call g' a' =>
      obtain ⟨rfl, ha⟩ := Shown.call.inj h
      simp only [Expr.nodes, List.map_cons]
      rw [ih ha]
      exact congrArg (· :: _) (Node.line_congr path rfl)
    | _ => cases h

/-- The drawing has one line for each node in prefix order, with four characters of branches for each step from the top
and then the label. -/
structure Drawn (e : Expr) : Prop where
  text : e.drawing = String.join ((e.nodes []).map fun n => n.stem ++ n.tree.label ++ "\n")
  lines : Text.lines '\n' '\r' e.drawing.toList = (e.nodes []).map fun n => (n.stem ++ n.tree.label).toList
  indent : ∀ n ∈ e.nodes [], n.stem.length = 4 * n.path.length
  label : ∀ n ∈ e.nodes [], (n.stem ++ n.tree.label).toList.dropWhile Node.isBranch = n.tree.label.toList

theorem Expr.Readable.drawn (h : e.Readable) : Drawn e := by
  have hlegible : ∀ n ∈ e.nodes [], Legible n.tree.label.toList := fun n hn => (h.of_mem_nodes hn).legible_label
  have htext : e.drawing = String.join (((e.nodes []).map Node.line).map (· ++ "\n")) := by
    rw [drawing, drawingLines_eq]
  refine ⟨?_, ?_, fun n _ => n.length_stem, fun n hn => (hlegible n hn).dropWhile_line⟩
  · rw [htext, List.map_map]
    rfl
  · have hkept : ∀ line ∈ (e.nodes []).map Node.line, '\n' ∉ line.toList ∧ '\r' ∉ line.toList := by
      intro line hline
      obtain ⟨n, hn, rfl⟩ := List.mem_map.mp hline
      exact ⟨(hlegible n hn).not_mem_line (by decide) (by decide), (hlegible n hn).not_mem_line (by decide) (by decide)⟩
    have hlines := Text.lines_join (.inl rfl) hkept []
    rw [List.append_nil, Text.lines_nil, List.append_nil] at hlines
    rw [htext, hlines, List.map_map]
    rfl

theorem Drawn.labels_eq (h : Drawn e) :
    (Text.lines '\n' '\r' e.drawing.toList).map (·.dropWhile Node.isBranch) = e.labels.map String.toList := by
  rw [h.lines, ← e.map_label_nodes [], List.map_map, List.map_map]
  exact List.map_congr_left h.label

end

/-- Two source texts are drawn alike if and only if they are read as the same tree, but for literals that are shown
alike.  The drawing has a line for each node, in prefix order, on which four characters of branches for each step from
the top are followed by the label. -/
theorem drawing_determines_tree (source other : String) (e f : Expr) (he : Expr.parse source = .ok e)
    (hf : Expr.parse other = .ok f) : (e.drawing = f.drawing ↔ e.shown = f.shown) ∧ Drawn e ∧ Drawn f := by
  have hdrawn := (readable_of_parse he).drawn
  have hdrawn' := (readable_of_parse hf).drawn
  refine ⟨⟨fun h => ?_, fun h => ?_⟩, hdrawn, hdrawn'⟩
  · -- the same text has the same lines, and so the same labels
    have hlabels := hdrawn.labels_eq
    rw [h, hdrawn'.labels_eq] at hlabels
    have hsame := List.map_injective_iff.mpr (fun _ _ => String.toList_inj.mp) hlabels
    have hlabels_nil : e.labels ++ [] = f.labels ++ [] := by rw [hsame]
    exact (shown_eq_of_labels hlabels_nil).1
  · rw [Expr.drawing, Expr.drawing, e.drawingLines_eq, f.drawingLines_eq, map_line_nodes_congr h]

/-- Literals that differ in the fifth place are drawn alike. -/
theorem drawing_determines_tree_rounded :
    let e := Expr.binary .mul (.lit ⟨(⟨12341, 5⟩ : Decimal).toFloat, 0.0⟩) (.var "x")
    let f := Expr.binary .mul (.lit ⟨(⟨12342, 5⟩ : Decimal).toFloat, 0.0⟩) (.var "x")
    e ≠ f ∧ (e.drawing = f.drawing ↔ e.shown = f.shown) ∧ e.shown = f.shown := by
  intro e f
  have he : Expr.parse "0.12341*x" = .ok e := by decide +kernel
  have hf : Expr.parse "0.12342*x" = .ok f := by decide +kernel
  exact ⟨by decide +kernel, (drawing_determines_tree _ _ e f he hf).1, by decide +kernel⟩

end ComplexCalc
