-- SUMMARY: The dump of a tree has one line for each node, and tells the tree apart from all others.
import Mathlib.Data.List.Forall2
import ScopeLang.Proofs.Places

/-! # Dumps and trees

The dump of a tree shows its nodes in preorder, one on a line. A line begins with
one rail for each level between the root and the node, which tells how deep the
node stands, and goes on with the label of the node, which tells its tag and its
text. The texts may be anything that stays on a line: the first opening bracket of
a label ends its tag, and only the last character of the line closes the text.

The depths of the nodes in preorder settle which node is a child of which. So the
dump determines the tree, except for its places.
-/

namespace ScopeLang

/-! ## Labels -/

theorem Tag.ofLabel?_label (t : Tag) : ofLabel? t.label = some t := by
  cases t with
  | binary op => rcases op with op | op | op <;> cases op <;> decide
  | _ => decide

theorem Tag.label_injective {t t' : Tag} (h : t.label = t'.label) : t = t' := by
  have hback : ofLabel? t.label = ofLabel? t'.label := congrArg ofLabel? h
  rw [ofLabel?_label, ofLabel?_label] at hback
  exact Option.some.inj hback

/-- The label of a tag is spelled with capitals and underscores. -/
theorem Tag.label_spelling (t : Tag) :
    t.label.toList ≠ [] ∧ ∀ c ∈ t.label.toList, c.isUpper = true ∨ c = '_' := by
  have hspelled : t.label.toList ≠ [] ∧ t.label.toList.all (fun c => c.isUpper || c == '_') := by
    cases t with
    | binary op => rcases op with op | op | op <;> cases op <;> decide
    | _ => decide
  simpa using hspelled

namespace Node

/-- What a label has behind the tag. -/
def textPart (text : String) : List Char :=
  if text.isEmpty then [] else '[' :: (text.toList ++ [']'])

theorem toList_label (n : Node) : n.label.toList = n.tag.label.toList ++ textPart n.text := by
  unfold label textPart
  split <;> simp

theorem textPart_injective {text text' : String} (h : textPart text = textPart text') :
    text = text' := by
  unfold textPart at h
  split at h
  next hempty =>
    split at h
    next hempty' => rw [String.isEmpty_iff.1 hempty, String.isEmpty_iff.1 hempty']
    next => cases h
  next =>
    split at h
    next => cases h
    next => exact String.toList_inj.1 (List.append_cancel_right (List.cons.inj h).2)

/-- The tag of a label goes up to its first bracket. -/
theorem takeWhile_label (n : Node) :
    n.label.toList.takeWhile (· != '[') = n.tag.label.toList := by
  have htag : ∀ c ∈ n.tag.label.toList, (c != '[') = true := by
    intro c hc
    obtain hupper | rfl := n.tag.label_spelling.2 c hc
    · rw [bne_iff_ne]
      rintro rfl
      cases hupper
    · rfl
  have htext : (textPart n.text).takeWhile (· != '[') = [] := by
    unfold textPart
    split <;> rfl
  rw [toList_label, List.takeWhile_append_of_pos htag, htext, List.append_nil]

theorem eq_of_label_eq {n n' : Node} (h : n.label = n'.label) :
    n.tag = n'.tag ∧ n.text = n'.text := by
  have htag : n.tag = n'.tag := by
    apply Tag.label_injective
    rw [← String.toList_inj, ← takeWhile_label, ← takeWhile_label, h]
  refine ⟨htag, textPart_injective ?_⟩
  have hlists := congrArg String.toList h
  rw [toList_label, toList_label, htag] at hlists
  exact List.append_cancel_left hlists

/-! ## Lines -/

/-- The rails in front of a line, the outermost first. -/
def rails (lasts : List Bool) : String :=
  String.join (lasts.map rail)

@[simp] theorem toList_rails_nil : (rails []).toList = [] := rfl

@[simp] theorem toList_rails_cons (last : Bool) (lasts : List Bool) :
    (rails (last :: lasts)).toList = (rail last).toList ++ (rails lasts).toList := by
  simp [rails]

/-- The line shows a node at its depth. -/
inductive Shows : Nat × Node → String → Prop
  | root (n : Node) : Shows (0, n) n.label
  | below (lasts : List Bool) (n : Node) :
      Shows (lasts.length + 1, n) (rails lasts ++ "+--" ++ n.label)

/-- A rail is as long as any other, and does not begin like a branch or a label. -/
theorem toList_rail (last : Bool) :
    ∃ c, (rail last).toList = [c, ' ', ' '] ∧ c ≠ '+' ∧ c.isUpper = false ∧ c ≠ '_' := by
  cases last <;> exact ⟨_, rfl, by decide⟩

/-- The rails of a line end where its branch begins. -/
theorem eq_of_rails_eq {lasts lasts' : List Bool} {rest rest' : List Char}
    (h : (rails lasts).toList ++ '+' :: rest = (rails lasts').toList ++ '+' :: rest') :
    lasts.length = lasts'.length ∧ rest = rest' := by
  induction lasts generalizing lasts' with
  | nil =>
      cases lasts' with
      | nil => exact ⟨rfl, (List.cons.inj h).2⟩
      | cons last lasts' =>
          obtain ⟨c, hrail, hc, -⟩ := toList_rail last
          rw [toList_rails_cons, hrail] at h
          exact absurd (List.cons.inj h).1.symm hc
  | cons last lasts ih =>
      obtain ⟨c, hrail, hc, -⟩ := toList_rail last
      rw [toList_rails_cons, hrail] at h
      cases lasts' with
      | nil => exact absurd (List.cons.inj h).1 hc
      | cons last' lasts' =>
          obtain ⟨c', hrail', -⟩ := toList_rail last'
          rw [toList_rails_cons, hrail'] at h
          simp only [List.cons_append, List.nil_append, List.cons.injEq] at h
          obtain ⟨hlength, hrest⟩ := ih h.2.2.2
          exact ⟨congrArg (· + 1) hlength, hrest⟩

/-- A label does not begin like a line below the root. -/
theorem label_ne_below (n n' : Node) (lasts : List Bool) :
    n.label ≠ rails lasts ++ "+--" ++ n'.label := by
  intro h
  obtain ⟨hne, hspelling⟩ := n.tag.label_spelling
  obtain ⟨c, cs, hlabel⟩ := List.exists_cons_of_ne_nil hne
  have hc : c.isUpper = true ∨ c = '_' := hspelling c (by simp [hlabel])
  have hlists := congrArg String.toList h
  rw [String.toList_append, String.toList_append, toList_label, hlabel] at hlists
  cases lasts with
  | nil =>
      obtain rfl : c = '+' := (List.cons.inj hlists).1
      exact absurd hc (by decide)
  | cons last lasts =>
      obtain ⟨c', hrail, -, hupper, hscore⟩ := toList_rail last
      rw [toList_rails_cons, hrail] at hlists
      obtain rfl : c = c' := (List.cons.inj hlists).1
      simp [hupper, hscore] at hc

/-- What a dump tells of a node: its depth, its tag and its text. -/
def told (entry : Nat × Node) : Nat × Tag × String :=
  (entry.1, entry.2.tag, entry.2.text)

theorem told_eq {entry entry' : Nat × Node} {line : String} (h : Shows entry line)
    (h' : Shows entry' line) : told entry = told entry' := by
  cases h with
  | root n =>
      generalize hline : n.label = line at h'
      cases h' with
      | root n' =>
          obtain ⟨htag, htext⟩ := eq_of_label_eq hline
          simp [told, htag, htext]
      | below lasts n' => exact absurd hline (label_ne_below n n' lasts)
  | below lasts n =>
      generalize hline : rails lasts ++ "+--" ++ n.label = line at h'
      cases h' with
      | root n' => exact absurd hline.symm (label_ne_below n' n lasts)
      | below lasts' n' =>
          have hlists := congrArg String.toList hline
          simp only [String.toList_append, List.append_assoc] at hlists
          obtain ⟨hlength, hlabels⟩ := eq_of_rails_eq hlists
          have hlabel : n.label = n'.label :=
            String.toList_inj.1 (List.cons.inj (List.cons.inj hlabels).2).2
          obtain ⟨htag, htext⟩ := eq_of_label_eq hlabel
          simp [told, hlength, htag, htext]

theorem map_told_eq {entries entries' : List (Nat × Node)} {lines : List String}
    (h : entries.Forall₂ Shows lines) (h' : entries'.Forall₂ Shows lines) :
    entries.map told = entries'.map told := by
  induction h generalizing entries' with
  | nil =>
      cases h'
      rfl
  | cons hshows _ ih =>
      cases h' with
      | cons hshows' hothers => rw [List.map_cons, List.map_cons, told_eq hshows hshows', ih hothers]

/-! ## One line for each node -/

mutual

theorem shows_linesBelow (lasts : List Bool) : ∀ n : Node,
    (preorderAll (lasts.length + 1) n.children).Forall₂ Shows (n.linesBelow (rails lasts))
  | ⟨_, _, _, children⟩ => by
    simp only [linesBelow]
    exact shows_branchLines lasts children

theorem shows_branchLines (lasts : List Bool) : ∀ ns : List Node,
    (preorderAll (lasts.length + 1) ns).Forall₂ Shows (branchLines (rails lasts) ns)
  | [] => by
    simp only [preorderAll, branchLines]
    exact .nil
  | n :: ns => by
    have hrails : rails (lasts ++ [ns.isEmpty]) = rails lasts ++ rail ns.isEmpty := by
      simp [rails]
    have hbelow := shows_linesBelow (lasts ++ [ns.isEmpty]) n
    rw [hrails, List.length_append] at hbelow
    have hnode : (preorder (lasts.length + 1) n).Forall₂ Shows
        ((rails lasts ++ "+--" ++ n.label) :: n.linesBelow (rails lasts ++ rail ns.isEmpty)) := by
      cases n
      simp only [preorder]
      exact .cons (.below lasts _) hbelow
    simp only [preorderAll, branchLines]
    exact List.rel_append hnode (shows_branchLines lasts ns)

end

theorem shows_dumpLines (n : Node) : (n.preorder 0).Forall₂ Shows n.dumpLines := by
  have hbelow := shows_linesBelow [] n
  cases n
  simp only [preorder, dumpLines]
  exact .cons (.root _) hbelow

/-! ## The lines of a dump -/

/-- No text of the tree has a line feed. -/
def OnLines (n : Node) : Prop :=
  ∀ entry ∈ n.preorder 0, '\n' ∉ entry.2.text.toList

instance (n : Node) : Decidable n.OnLines :=
  inferInstanceAs (Decidable (∀ entry ∈ n.preorder 0, '\n' ∉ entry.2.text.toList))

theorem lineFeed_notMem_label {n : Node} (h : '\n' ∉ n.text.toList) : '\n' ∉ n.label.toList := by
  intro hmem
  rw [toList_label, List.mem_append] at hmem
  obtain htag | htext := hmem
  · have hspelling := n.tag.label_spelling.2 '\n' htag
    revert hspelling
    decide
  · unfold textPart at htext
    split at htext
    · cases htext
    · simp [h] at htext

theorem lineFeed_notMem_rails (lasts : List Bool) : '\n' ∉ (rails lasts).toList := by
  induction lasts with
  | nil => exact List.not_mem_nil
  | cons last lasts ih =>
      have hrail : '\n' ∉ (rail last).toList := by cases last <;> decide
      rw [toList_rails_cons, List.mem_append]
      exact not_or.2 ⟨hrail, ih⟩

theorem lineFeed_notMem_of_shows {entry : Nat × Node} {line : String} (hshows : Shows entry line)
    (h : '\n' ∉ entry.2.text.toList) : '\n' ∉ line.toList := by
  cases hshows with
  | root n => exact lineFeed_notMem_label h
  | below lasts n =>
      have hrails := lineFeed_notMem_rails lasts
      have hbranch : '\n' ∉ "+--".toList := by decide
      simp only [String.toList_append, List.mem_append, not_or]
      exact ⟨⟨hrails, hbranch⟩, lineFeed_notMem_label h⟩

/-- A text that is put together from lines is cut into the same lines. -/
theorem splitOn_join {lines : List String} (h : ∀ line ∈ lines, '\n' ∉ line.toList) :
    (String.join (lines.map (· ++ "\n"))).toList.splitOn '\n' = lines.map String.toList ++ [[]] := by
  induction lines with
  | nil => rfl
  | cons line lines ih =>
      obtain ⟨hline, hlines⟩ := List.forall_mem_cons.1 h
      have hcons : (String.join ((line :: lines).map (· ++ "\n"))).toList =
          line.toList ++ '\n' :: (String.join (lines.map (· ++ "\n"))).toList := by
        simp
      rw [hcons, List.splitOn_append_cons_self_of_not_mem hline, ih hlines]
      rfl

theorem splitOn_dump {n : Node} (h : n.OnLines) :
    n.dump.toList.splitOn '\n' = n.dumpLines.map String.toList ++ [[]] := by
  apply splitOn_join
  intro line hline
  obtain ⟨i, hi, rfl⟩ := List.getElem_of_mem hline
  have hlength := (shows_dumpLines n).length_eq
  have hshows := (shows_dumpLines n).get (hlength ▸ hi) hi
  exact lineFeed_notMem_of_shows hshows (h _ (List.get_mem _ _))

/-! ## Trees from their preorder -/

/-- The next node, if there is one, is not so deep. -/
def Shallower (depth : Nat) (entries : List (Nat × Node)) : Prop :=
  ∀ entry ∈ entries.head?, entry.1 < depth

theorem shallower_preorderAll {depth : Nat} {ns : List Node} {rest : List (Nat × Node)}
    (h : Shallower depth rest) : Shallower (depth + 1) (preorderAll depth ns ++ rest) := by
  cases ns with
  | nil =>
      intro entry hentry
      simp only [preorderAll, List.nil_append] at hentry
      exact Nat.lt_succ_of_lt (h entry hentry)
  | cons n ns =>
      intro entry hentry
      cases n
      simp only [preorderAll, preorder] at hentry
      cases hentry
      exact Nat.lt_succ_self depth

/-- Where there is a sibling at a depth, it is told apart from what is not as deep. -/
theorem map_told_ne {depth : Nat} {rest rest' : List (Nat × Node)} (h : Shallower depth rest)
    (n : Node) (ns : List Node) :
    rest.map told ≠ (preorderAll depth (n :: ns) ++ rest').map told := by
  intro htold
  cases n
  simp only [preorderAll, preorder, List.cons_append, List.map_cons] at htold
  obtain ⟨entry, entries, rfl, hentry, -⟩ := List.map_eq_cons_iff.1 htold
  exact Nat.ne_of_lt (h entry rfl) (congrArg Prod.fst hentry)

/-- What a dump tells of some siblings and of what follows them, not as deep, determines the
siblings and tells the same of what follows. -/
theorem unplaced_of_map_told {depth : Nat} {rest rest' : List (Nat × Node)}
    (hrest : Shallower depth rest) (hrest' : Shallower depth rest') : ∀ {ns ns' : List Node},
    (preorderAll depth ns ++ rest).map told = (preorderAll depth ns' ++ rest').map told →
    ns.map unplaced = ns'.map unplaced ∧ rest.map told = rest'.map told
  | [], [], h => by
    simpa only [preorderAll, List.nil_append, List.map_nil, true_and] using h
  | [], n' :: ns', h => by
    simp only [preorderAll, List.nil_append] at h
    exact absurd h (map_told_ne hrest n' ns')
  | n :: ns, [], h => by
    simp only [preorderAll, List.nil_append] at h
    exact absurd h.symm (map_told_ne hrest' n ns)
  | ⟨tag, text, span, children⟩ :: ns, ⟨tag', text', span', children'⟩ :: ns', h => by
    simp only [preorderAll, preorder, List.cons_append, List.append_assoc, List.map_cons,
      List.cons.injEq] at h
    obtain ⟨htold, hothers⟩ := h
    obtain ⟨hchildren, hsiblings⟩ := unplaced_of_map_told (shallower_preorderAll hrest)
      (shallower_preorderAll hrest') hothers
    obtain ⟨hns, hfollowing⟩ := unplaced_of_map_told hrest hrest' hsiblings
    refine ⟨?_, hfollowing⟩
    cases htold
    simp [unplaced, hchildren, hns]

theorem unplaced_of_dump_eq {n n' : Node} (hn : n.OnLines) (hn' : n'.OnLines)
    (h : n.dump = n'.dump) : n.unplaced = n'.unplaced := by
  have hlines : n.dumpLines = n'.dumpLines := by
    have hsplit := congrArg (fun text => text.toList.splitOn '\n') h
    simp only [splitOn_dump hn, splitOn_dump hn'] at hsplit
    have hinjective : Function.Injective String.toList := fun _ _ => String.toList_injective
    exact hinjective.list_map (List.append_cancel_right hsplit)
  have htold : (n.preorder 0).map told = (n'.preorder 0).map told :=
    map_told_eq (hlines ▸ shows_dumpLines n) (shows_dumpLines n')
  have hroots : (preorderAll 0 [n] ++ []).map told = (preorderAll 0 [n'] ++ []).map told := by
    simpa only [preorderAll, List.append_nil] using htold
  have hend : Shallower 0 [] := fun _ hentry => absurd hentry (Option.not_mem_none _)
  obtain ⟨hunplaced, -⟩ := unplaced_of_map_told hend hend hroots
  exact (List.cons.inj hunplaced).1

/-- If no text has a line feed, the dump of a tree shows each of its nodes in preorder on a line,
and two trees have the same dump only if they are the same up to their places. -/
theorem dump_determines_tree (n n' : Node) (hn : n.OnLines) (hn' : n'.OnLines) :
    (∃ lines : List String, n.dump.toList.splitOn '\n' = lines.map String.toList ++ [[]] ∧
      (n.preorder 0).Forall₂ Shows lines) ∧
    (n.dump = n'.dump ↔ n.unplaced = n'.unplaced) := by
  refine ⟨⟨n.dumpLines, splitOn_dump hn, shows_dumpLines n⟩, unplaced_of_dump_eq hn hn', ?_⟩
  intro h
  rw [← dump_unplaced n, h, dump_unplaced]

/-- A text that looks like the line of a child is told apart from the child. -/
theorem dump_determines_tree_forged :
    let forged : Node := .inner .statement .start [.leaf .text "a]   +--VARREF[b" .start]
    let nested : Node := .inner .statement .start [⟨.text, "a", .start, [.leaf .name "b" .start]⟩]
    forged.OnLines ∧ nested.OnLines ∧ forged.dump ≠ nested.dump := by
  intro forged nested
  have hforged : forged.OnLines := by decide
  have hnested : nested.OnLines := by decide
  refine ⟨hforged, hnested, ?_⟩
  intro h
  have hunplaced := (dump_determines_tree forged nested hforged hnested).2.1 h
  have hchildren := congrArg (fun t => t.children.map fun c => c.children.length) hunplaced
  exact absurd hchildren (by decide)

end Node

end ScopeLang
