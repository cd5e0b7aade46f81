import Mathlib.Data.List.TakeWhile
import OnePass.File.Tree
import OnePass.Proofs.Assembler.Reading

namespace OnePass

namespace Path

/-- A name as it stands in a directory. -/
structure Ordinary (n : Text) : Prop where
  nonempty : n ≠ []
  not_here : n ≠ here
  not_up : n ≠ up
  no_slash : .char '/' ∉ n

def Clean (p : Path) : Prop := ∀ n ∈ p, Ordinary n

variable {p q dir : Path} {n t : Text} {ns ms : List Text}

theorem follow_append (p : Path) (ns ms : List Text) : follow p (ns ++ ms) = follow (follow p ns) ms := by
  fun_induction follow p ns with
  | case1 p => rfl
  | case2 p n ns hn ih => rw [List.cons_append, follow, if_pos hn, ih]
  | case3 p ns hn ih => rw [List.cons_append, follow, if_neg hn, if_pos rfl, ih]
  | case4 p n ns hn hup ih => rw [List.cons_append, follow, if_neg hn, if_neg hup, ih]

theorem Ordinary.follow (h : Ordinary n) : Path.follow p [n] = p ++ [n] := by
  have hn : ¬(n.isEmpty ∨ n = here) := by simp [h.nonempty, h.not_here]
  rw [Path.follow, if_neg hn, if_neg h.not_up]
  rfl

theorem follow_clean (hp : Clean p) (hns : ∀ n ∈ ns, .char '/' ∉ n) : Clean (follow p ns) := by
  fun_induction follow p ns with
  | case1 p => exact hp
  | case2 p n ns hn ih => exact ih hp fun m hm => hns m (List.mem_cons_of_mem _ hm)
  | case3 p ns hn ih =>
    exact ih (fun m hm => hp m (List.dropLast_subset p hm)) fun m hm =>
      hns m (List.mem_cons_of_mem _ hm)
  | case4 p n ns hn hup ih =>
    refine ih (fun m hm => ?_) fun m hm => hns m (List.mem_cons_of_mem _ hm)
    rcases List.mem_append.1 hm with hm | hm
    · exact hp m hm
    · simp only [not_or] at hn
      rw [List.mem_singleton.1 hm]
      exact ⟨by simpa using hn.1, hn.2, hup, hns n List.mem_cons_self⟩

theorem absolute_clean (hdir : Clean dir) : Clean (absolute dir t) := by
  refine follow_clean ?_ fun n hn => Text.not_mem_of_mem_splitAt hn
  split
  · exact fun n hn => by cases hn
  · exact hdir

theorem splitAt_flatMap (hp : Clean (n :: p)) :
    Text.splitAt (.char '/') (n ++ p.flatMap fun name => (.char '/' : Glyph) :: name) = n :: p := by
  have hn : .char '/' ∉ n := (hp n List.mem_cons_self).no_slash
  induction p generalizing n with
  | nil => simpa using Text.splitAt_of_not_mem hn
  | cons m p ih =>
    have hrest : Clean (m :: p) := fun k hk => hp k (List.mem_cons_of_mem _ hk)
    rw [List.flatMap_cons, List.cons_append, Text.splitAt_append hn,
      ih hrest (hrest m List.mem_cons_self).no_slash]

/-- The names on a clean path are the pieces of its text. -/
theorem parts_text (hp : Clean p) (hne : p ≠ []) : parts (text p) = [] :: p := by
  cases p with
  | nil => exact absurd rfl hne
  | cons n p =>
    have htext : text (n :: p) = (.char '/' : Glyph) :: (n ++ p.flatMap fun name => (.char '/' : Glyph) :: name) := by
      simp [text]
    rw [htext, parts, Text.splitAt, if_pos rfl, splitAt_flatMap hp]

theorem extension_length_le {last : Text} (hlast : t = last ∨ ∃ front, t = front ++ .char '/' :: last)
    (hslash : .char '/' ∉ last) : (extension t).length ≤ last.length := by
  have hall : ∀ g ∈ last.reverse, (g != (.char '/' : Glyph)) = true := by
    intro g hg
    have hne : g ≠ .char '/' := fun h => hslash (h ▸ List.mem_reverse.1 hg)
    simpa using hne
  have hname : (t.reverse.takeWhile (· != .char '/')).reverse = last := by
    rcases hlast with rfl | ⟨front, rfl⟩
    · rw [List.takeWhile_eq_self_iff.2 hall, List.reverse_reverse]
    · rw [List.reverse_append, List.reverse_cons, List.append_assoc, List.takeWhile_append_of_pos hall]
      simp
  simp only [extension, hname]
  split
  · rw [List.length_cons]
    omega
  · exact Nat.zero_le _

theorem follow_dots (hn : n.isEmpty ∨ n = here ∨ n = up) : follow p [n] <+: p := by
  rw [follow]
  split
  · exact List.prefix_refl p
  · split
    · exact List.dropLast_prefix p
    · simp_all

theorem not_isAbsolute (ht : .char '/' ∉ t) : isAbsolute t = false := by
  cases t with
  | nil => rfl
  | cons g t =>
    have hg : g ≠ .char '/' := fun h => ht (by simp [h])
    simpa [isAbsolute] using hg

/-- Another extension changes nothing but the last name. -/
theorem parts_withExtension (t : Text) {ext : Text} (hext : .char '/' ∉ ext) :
    ∃ init last stem, parts t = init ++ [last] ∧ parts (withExtension t ext) = init ++ [stem ++ ext] ∧
      isAbsolute (withExtension t ext) = isAbsolute t := by
  have hstem : ∀ (last : Text) k, .char '/' ∉ last → .char '/' ∉ last.take k ++ ext := by
    intro last k hlast hmem
    rcases List.mem_append.1 hmem with h | h
    · exact hlast (List.mem_of_mem_take h)
    · exact hext h
  rcases Text.eq_append_last (.char '/') t with hslash | ⟨front, last, ht, hlast⟩
  · refine ⟨[], t, t.take (t.length - (extension t).length), ?_, ?_, ?_⟩
    · exact Text.splitAt_of_not_mem hslash
    · exact Text.splitAt_of_not_mem (hstem _ _ hslash)
    · rw [withExtension, not_isAbsolute (hstem _ _ hslash), not_isAbsolute hslash]
  · have hlen := extension_length_le (.inr ⟨front, ht⟩) hlast
    have hout : withExtension t ext =
        front ++ .char '/' :: (last.take (last.length - (extension t).length) ++ ext) := by
      rw [withExtension]
      generalize (extension t).length = k at hlen
      have hk : front.length + (last.length + 1) - k = front.length + (last.length - k + 1) := by omega
      simp [ht, hk, List.take_append, List.take_of_length_le]
    refine ⟨parts front, last, last.take (last.length - (extension t).length), ?_, ?_, ?_⟩
    · rw [ht, parts, Text.splitAt_append_last hlast]
      rfl
    · rw [hout, parts, Text.splitAt_append_last (hstem _ _ hlast)]
      rfl
    · rw [hout, ht]
      cases front <;> simp [isAbsolute]

end Path

namespace FileTree

variable {t t' : FileTree} {p q r dir : Path} {n : FileNode} {name text c : Text} {ns : List Text}

theorem lookup_map_update (nodes : List (Path × FileNode)) :
    (nodes.map fun e => if e.1 = p then (p, n) else e).lookup q =
      if q = p then (nodes.lookup p).map (fun _ => n) else nodes.lookup q := by
  induction nodes with
  | nil => simp
  | cons e nodes ih =>
    rw [List.map_cons, List.lookup_cons, List.lookup_cons, List.lookup_cons, ih]
    by_cases hq : q = p
    · subst hq
      by_cases he : e.1 = q
      · simp [he]
      · simp [he, beq_eq_false_iff_ne.2 (Ne.symm he)]
    · by_cases he : e.1 = p
      · simp [he, hq, beq_eq_false_iff_ne.2 hq]
      · simp [he, hq]

theorem node?_of_ne_nil (hp : p ≠ []) : t.node? p = t.nodes.lookup p := by simp [node?, hp]

/-- An insertion is an update of the node at one place. -/
theorem node?_insert (hp : p ≠ []) :
    (t.insert p n).node? q = if q = p then some n else t.node? q := by
  by_cases hq : q = []
  · simp [hq, node?, hp.symm]
  · rw [node?_of_ne_nil hq, node?_of_ne_nil hq, insert]
    cases hlookup : t.nodes.lookup p with
    | some m =>
      simp only [Option.isSome_some, if_true, lookup_map_update, hlookup, Option.map_some]
    | none =>
      simp only [Option.isSome_none, Bool.false_eq_true, if_false, List.lookup_append, List.lookup_cons]
      by_cases hqp : q = p
      · simp [hqp, hlookup]
      · simp [hqp, beq_eq_false_iff_ne.2 hqp]

/-- Each place but the last on the way from `p` along `names` is a directory. -/
def passable (t : FileTree) (p : Path) : List Text → Bool
  | [] => true
  | n :: ns => t.isDir p && passable t (p ++ [n]) ns

theorem passable_concat : t.passable p (ns ++ [name]) = (t.passable p ns && t.isDir (p ++ ns)) := by
  induction ns generalizing p with
  | nil => simp [passable]
  | cons m ns ih => simp [passable, ih, Bool.and_assoc]

theorem follow_of_walk (h : t.walk p ns = .ok q) : q = Path.follow p ns := by
  induction ns generalizing p with
  | nil =>
    rw [walk] at h
    split at h <;> cases h
    rfl
  | cons m ns ih =>
    rw [walk] at h
    rw [Path.follow]
    split at h
    · cases h
    · cases h
    · split <;> rename_i hm
      · rw [if_pos hm] at h
        exact ih h
      · rw [if_neg hm] at h
        split <;> rename_i hup
        · rw [if_pos hup] at h
          exact ih h
        · rw [if_neg hup] at h
          exact ih h

theorem walk_of_clean (hns : Path.Clean ns) :
    t.walk p ns = .ok q ↔ t.passable p ns ∧ q = p ++ ns ∧ (t.node? q).isSome := by
  induction ns generalizing p with
  | nil =>
    rw [walk, passable, List.append_nil]
    split <;> grind
  | cons m ns ih =>
    have hm := hns m List.mem_cons_self
    have hrest := ih (p := p ++ [m]) fun k hk => hns k (List.mem_cons_of_mem _ hk)
    rw [walk, if_neg (by simp [hm.nonempty, hm.not_here]), if_neg hm.not_up, passable, isDir]
    split <;> rename_i hp <;> simp [hp, hrest]

/-- The file under a clean path is the one at that place. -/
theorem read_text (hp : Path.Clean p) :
    t.read [] (Path.text p) = .ok c ↔ t.passable [] p ∧ t.node? p = some (.file c) := by
  cases p with
  | nil =>
    have hroot : t.read [] (Path.text []) = .error ⟨"read", "/", .isDirectory⟩ := rfl
    simp [hroot, node?]
  | cons m p =>
    have hne : (Path.text (m :: p)).isEmpty = false := rfl
    have hstart : start [] (Path.text (m :: p)) = [] := by simp [start]
    have hwalk : t.walk [] (Path.parts (Path.text (m :: p))) = t.walk [] (m :: p) := by
      rw [Path.parts_text hp (by simp)]
      rfl
    rw [read, hne, hstart, hwalk]
    cases hresult : t.walk [] (m :: p) with
    | error e =>
      have hnot : ¬(t.passable [] (m :: p) ∧ t.node? (m :: p) = some (.file c)) := by
        intro ⟨hpass, hfile⟩
        have hok := (walk_of_clean hp).2 ⟨hpass, List.nil_append _, by simp [hfile]⟩
        rw [hresult] at hok
        cases hok
      simp [hnot]
    | ok q =>
      obtain ⟨hpass, hq, -⟩ := (walk_of_clean hp).1 hresult
      rw [List.nil_append] at hq
      subst hq
      cases hnode : t.node? (m :: p) with
      | none => simp [hnode]
      | some n => cases n <;> simp [hnode, hpass]

/-- Two stages of one file tree: directories stay what they are, and no file vanishes. -/
structure Grows (t t' : FileTree) : Prop where
  isDir_eq : ∀ p, t'.isDir p = t.isDir p
  isSome : ∀ p, (t.node? p).isSome → (t'.node? p).isSome

theorem Grows.refl (t : FileTree) : Grows t t := ⟨fun _ => rfl, fun _ h => h⟩

theorem Grows.trans {t'' : FileTree} (h : Grows t t') (h' : Grows t' t'') : Grows t t'' :=
  ⟨fun p => (h'.isDir_eq p).trans (h.isDir_eq p), fun p hp => h'.isSome p (h.isSome p hp)⟩

theorem ne_nil_of_not_isDir (hp : ¬t.isDir p) : p ≠ [] := by
  intro h
  exact hp (by simp [h, isDir, node?])

theorem grows_insert (hp : ¬t.isDir p) : Grows t (t.insert p (.file c)) := by
  have hne := ne_nil_of_not_isDir hp
  constructor
  · intro q
    by_cases hq : q = p
    · simpa [isDir, node?_insert hne, hq] using hp
    · simp [isDir, node?_insert hne, hq]
  · intro q hq
    rw [node?_insert hne]
    split <;> simp_all

theorem Grows.passable (h : Grows t t') : t'.passable p ns = t.passable p ns := by
  induction ns generalizing p with
  | nil => rfl
  | cons m ns ih => rw [FileTree.passable, FileTree.passable, h.isDir_eq, ih]

theorem Grows.walk (h : Grows t t') (hwalk : t.walk p ns = .ok q) : t'.walk p ns = .ok q := by
  have hdir : ∀ p, t.node? p = some .dir → t'.node? p = some .dir := by
    intro p hp
    have := h.isDir_eq p
    simpa [isDir, hp] using this
  fun_induction FileTree.walk t p ns with
  | case1 p hp =>
    rw [FileTree.walk, if_pos (h.isSome p hp)]
    exact hwalk
  | case2 => cases hwalk
  | case3 => cases hwalk
  | case4 => cases hwalk
  | case5 p m ns hp hm ih =>
    rw [FileTree.walk, hdir p hp, if_pos hm]
    exact ih hwalk
  | case6 p ns hp hm ih =>
    rw [FileTree.walk, hdir p hp, if_neg hm, if_pos rfl]
    exact ih hwalk
  | case7 p m ns hp hm hup ih =>
    rw [FileTree.walk, hdir p hp, if_neg hm, if_neg hup]
    exact ih hwalk

/-- A text whose last name is an ordinary one is opened for writing at the place that it names, unless a directory
is there. -/
theorem target_eq_ok_iff {init : List Text} (hparts : Path.parts text = init ++ [name])
    (hname : Path.Ordinary name) :
    t.target dir text = .ok q ↔
      ∃ p, t.walk (start dir text) init = .ok p ∧ t.isDir p ∧ ¬t.isDir (p ++ [name]) ∧ q = p ++ [name] := by
  have hbody : ((Path.parts text).reverse.dropWhile (·.isEmpty)) = name :: init.reverse := by
    simp [hparts, hname.nonempty]
  have hlength : ¬(name :: init.reverse).length < (Path.parts text).reverse.length := by simp [hparts]
  rw [target, hbody]
  simp only [List.reverse_reverse, hlength, hname.not_here, hname.not_up, false_or]
  cases t.walk (start dir text) init with
  | error e => simp [bind, Except.bind]
  | ok p =>
    by_cases hp : t.isDir p <;> by_cases hlast : t.isDir (p ++ [name]) <;>
      simp [bind, Except.bind, pure, Except.pure, throw, throwThe, MonadExceptOf.throw, hp, hlast]
    exact eq_comm

theorem isDir_of_passable (h : t.passable p ns) (hns : ns ≠ []) : t.isDir p := by
  cases ns with
  | nil => exact absurd rfl hns
  | cons m ns =>
    rw [passable, Bool.and_eq_true] at h
    exact h.1

theorem makeDirs_of_passable (h : t.passable p (ns ++ [name])) : t.makeDirs p ns = .ok t := by
  induction ns generalizing p with
  | nil => rfl
  | cons m ns ih =>
    rw [List.cons_append, passable, Bool.and_eq_true] at h
    have hdir : t.node? (p ++ [m]) = some .dir := by
      simpa [isDir] using isDir_of_passable h.2 (by simp)
    simp only [makeDirs, hdir, ih h.2]

/-- Directories cannot be made through a file. -/
theorem not_file_of_makeDirs (h : t.makeDirs p ns = .ok t') (hq : q <+: ns) (hne : q ≠ []) :
    t.node? (p ++ q) ≠ some (.file c) := by
  induction ns generalizing t p q with
  | nil => exact absurd (List.prefix_nil.1 hq) hne
  | cons m ns ih =>
    obtain ⟨k, q, rfl⟩ := List.exists_cons_of_ne_nil hne
    obtain ⟨rfl, hrest⟩ := List.cons_prefix_cons.1 hq
    have hassoc : p ++ k :: q = p ++ [k] ++ q := by simp
    simp only [makeDirs] at h
    rw [hassoc]
    by_cases hnil : q = []
    · rw [hnil, List.append_nil]
      split at h <;> simp_all
    · split at h
      · exact ih h hrest hnil
      · cases h
      · have hnode := ih h hrest hnil
        rw [node?_insert (by simp), if_neg (by simp [hnil])] at hnode
        exact hnode

end FileTree

end OnePass
