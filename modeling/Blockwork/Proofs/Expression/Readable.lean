import Blockwork.Expression.Reading
import Blockwork.Proofs.Decimal.Double

/-! # Trees that texts can say

Reading gives trees of a certain form: numbers are not negative, symbols are words with no other
meaning, and every operator has as many operands as it is written with. Such a tree is spelled by
a row of token kinds, and reading that row again groups every operator and nothing else.
-/

set_option autoImplicit false

namespace Blockwork

theorem forall_mem_intercalate {α : Type} {p : α → Prop} {separator : List α} {xss : List (List α)}
    (hSeparator : ∀ x ∈ separator, p x) (h : ∀ xs ∈ xss, ∀ x ∈ xs, p x) :
    ∀ x ∈ separator.intercalate xss, p x := by
  induction xss with
  | nil => exact nofun
  | cons xs xss ih =>
    have hHead := h xs List.mem_cons_self
    have hLater := ih fun ys hys => h ys (List.mem_cons_of_mem _ hys)
    cases xss with
    | nil => simpa using hHead
    | cons ys xss =>
      rw [List.intercalate_cons_cons]
      simpa only [List.forall_mem_append] using ⟨⟨hHead, hSeparator⟩, hLater⟩

def Scan.IsWord (name : String) : Prop :=
  ∃ c cs, name.toList = c :: cs ∧ isWordStart c = true ∧ ∀ a ∈ cs, isWordPart a = true

structure IsName (name : String) : Prop where
  word : Scan.IsWord name
  kind : Scan.wordKind name = .ident name

def TokenKind.Readable : TokenKind → Prop
  | .ident name => IsName name
  | .number x => ∃ word ≤ Double.top, x = Double.ofWord word
  | _ => True

inductive Literal.Readable : Literal → Prop where
  | nan : Readable (.number (0.0 / 0.0))
  | magnitude {word : Nat} (h : word ≤ Double.top) : Readable (.number (Double.ofWord word))
  | text (s : String) : Readable (.text s)
  | truth (b : Bool) : Readable (.truth b)
  | null : Readable .null

inductive Node.Readable : Node → Prop where
  | symbol {name : String} (hName : IsName name) (hPlain : Reading.named name = .symbol name) :
      Readable (.symbol name)
  | literal {v : Literal} (h : v.Readable) : Readable (.literal v)
  | unary {op : Operator} {n : Node} (hUnary : op.isUnary = true) (h : n.Readable) :
      Readable (.operator op [n])
  | binary {op : Operator} {l r : Node} (hBinary : op.isUnary = false) (hl : l.Readable)
      (hr : r.Readable) : Readable (.operator op [l, r])
  | call {name : String} {ns : List Node} (hName : IsName name) (h : ∀ n ∈ ns, n.Readable) :
      Readable (.call name ns)
  | group {n : Node} (h : n.Readable) : Readable (.group n)

def Operator.kind : Operator → TokenKind
  | .add => .plus
  | .sub => .minus
  | .mul => .star
  | .div => .slash
  | .mod => .percent
  | .pow => .caret
  | .gt => .greater
  | .lt => .less
  | .ge => .greaterEqual
  | .le => .lessEqual
  | .eq => .equal
  | .ne => .notEqual
  | .and => .and
  | .or => .or
  | .xor => .xor
  | .not => .not
  | .neg => .minus

def Literal.kind : Literal → TokenKind
  | .number x =>
    if x.isNaN then .ident "NaN" else if x.isFinite then .number x else .ident "Infinity"
  | .text s => .text s
  | .truth b => .ident (if b then "true" else "false")
  | .null => .ident "null"

namespace Node

mutual

def kinds : Node → List TokenKind
  | .symbol name => [.ident name]
  | .literal v => [v.kind]
  | .group inner => inner.kinds
  | .operator op ns =>
    match kindsAll ns with
    | [ks] => .leftParen :: op.kind :: ks ++ [.rightParen]
    | kss => .leftParen :: [op.kind].intercalate kss ++ [.rightParen]
  | .call name ns =>
    .ident name :: .leftParen :: [TokenKind.comma].intercalate (kindsAll ns) ++ [.rightParen]

def kindsAll : List Node → List (List TokenKind)
  | [] => []
  | n :: ns => n.kinds :: kindsAll ns

end

theorem kindsAll_eq_map (ns : List Node) : kindsAll ns = ns.map kinds := by
  induction ns with
  | nil => rfl
  | cons n ns ih => simp [kindsAll, ih]

mutual

/-- The tree with a group around every operator and no other. -/
def regroup : Node → Node
  | .symbol name => .symbol name
  | .literal v => .literal v
  | .group inner => inner.regroup
  | .operator op ns => .group (.operator op (regroupAll ns))
  | .call name ns => .call name (regroupAll ns)

def regroupAll : List Node → List Node
  | [] => []
  | n :: ns => n.regroup :: regroupAll ns

end

theorem regroupAll_eq_map (ns : List Node) : regroupAll ns = ns.map regroup := by
  induction ns with
  | nil => rfl
  | cons n ns ih => simp [regroupAll, ih]

mutual

@[simp] theorem ungroup_regroup : (n : Node) → n.regroup.ungroup = n.ungroup
  | .symbol _ => rfl
  | .literal _ => rfl
  | .group inner => ungroup_regroup inner
  | .operator op ns => by rw [regroup, ungroup, ungroup, ungroup, ungroupAll_regroupAll ns]
  | .call name ns => by rw [regroup, ungroup, ungroup, ungroupAll_regroupAll ns]

theorem ungroupAll_regroupAll : (ns : List Node) → ungroupAll (regroupAll ns) = ungroupAll ns
  | [] => rfl
  | n :: ns => by
    rw [regroupAll, ungroupAll, ungroupAll, ungroup_regroup n, ungroupAll_regroupAll ns]

end

mutual

@[simp] theorem ungroup_ungroup : (n : Node) → n.ungroup.ungroup = n.ungroup
  | .symbol _ => rfl
  | .literal _ => rfl
  | .group inner => ungroup_ungroup inner
  | .operator op ns => by rw [ungroup, ungroup, ungroupAll_ungroupAll ns]
  | .call name ns => by rw [ungroup, ungroup, ungroupAll_ungroupAll ns]

theorem ungroupAll_ungroupAll : (ns : List Node) → ungroupAll (ungroupAll ns) = ungroupAll ns
  | [] => rfl
  | n :: ns => by rw [ungroupAll, ungroupAll, ungroup_ungroup n, ungroupAll_ungroupAll ns]

end

mutual

@[simp] theorem canonical_ungroup : (n : Node) → n.ungroup.canonical = n.canonical
  | .symbol _ => rfl
  | .literal _ => rfl
  | .group inner => canonical_ungroup inner
  | .operator op ns => by rw [ungroup, canonical, canonical, canonicals_ungroupAll ns]
  | .call name ns => by rw [ungroup, canonical, canonical, canonicals_ungroupAll ns]

theorem canonicals_ungroupAll : (ns : List Node) → canonicals (ungroupAll ns) = canonicals ns
  | [] => rfl
  | n :: ns => by
    rw [ungroupAll, canonicals, canonicals, canonical_ungroup n, canonicals_ungroupAll ns]

end

theorem canonical_congr {n m : Node} (h : n.ungroup = m.ungroup) : n.canonical = m.canonical := by
  rw [← canonical_ungroup n, h, canonical_ungroup m]

end Node

end Blockwork
