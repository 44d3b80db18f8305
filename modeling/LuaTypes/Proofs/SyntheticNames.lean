import Std.Data.String.ToNat
import LuaTypes.Infer.Node
import LuaTypes.Proofs.SourceTrees

/-!
Names of the classes that no declaration names. Such a name is made of a path and a number, and both
can be read off it again, whatever the path is: digits are no separators, so the number ends at the
first separator where it comes first, and begins after the last one where it comes last. In a
program of files with different paths, no two nodes share a name.
-/

namespace LuaTypes

/-! Texts in two parts. -/

section

variable {α : Type} {c : α}

/-- A list is cut in two at its last separator. -/
theorem append_cons_inj_of_last (xs ys : List α) {left right : List α} (hleft : c ∉ left)
    (hright : c ∉ right) : xs ++ c :: left = ys ++ c :: right ↔ xs = ys ∧ left = right := by
  -- What one list has before its separator and the other does not, would end in a separator.
  have hshort {xs ys left right : List α} {more : List α} (hleft : c ∉ left)
      (hys : ys = xs ++ more) (heq : c :: left = more ++ c :: right) : xs = ys ∧ left = right := by
    cases more with
    | nil => exact ⟨by rw [hys, List.append_nil], (List.cons.inj heq).2⟩
    | cons first more =>
      refine absurd ?_ hleft
      rw [(List.cons.inj heq).2]
      simp
  constructor
  · intro heq
    rcases List.append_eq_append_iff.mp heq with ⟨more, hys, hmore⟩ | ⟨more, hxs, hmore⟩
    · exact hshort hleft hys hmore
    · obtain ⟨hsame, htails⟩ := hshort hright hxs hmore
      exact ⟨hsame.symm, htails.symm⟩
  · rintro ⟨rfl, rfl⟩
    rfl

/-- A list is cut in two at its first separator. -/
theorem append_cons_inj_of_first {xs ys : List α} (left right : List α) (hxs : c ∉ xs)
    (hys : c ∉ ys) : xs ++ c :: left = ys ++ c :: right ↔ xs = ys ∧ left = right := by
  have hlast := append_cons_inj_of_last left.reverse right.reverse
    (mt List.mem_reverse.mp hxs) (mt List.mem_reverse.mp hys)
  rw [← List.reverse_inj, and_comm]
  simpa using hlast

end

theorem notMem_toString {c : Char} (hc : c.isDigit = false) (n : Nat) :
    c ∉ (toString n).toList := by
  rw [Nat.toString_eq_repr, Nat.toList_repr]
  intro hmem
  rw [Nat.isDigit_of_mem_toDigits (by decide) (by decide) hmem] at hc
  cases hc

theorem toString_inj {m n : Nat} : toString m = toString n ↔ m = n := by
  rw [Nat.toString_eq_repr, Nat.toString_eq_repr, Nat.repr_inj]

/-! Names of classes. -/

section

variable {path path' : String} {offset offset' : Nat}

/-- The offset stands after the last opening bracket. -/
theorem tableClassName_inj : tableClassName path offset = tableClassName path' offset' ↔
    path = path' ∧ offset = offset' := by
  have hcut := append_cons_inj_of_last (path.toList ++ ['@']) (path'.toList ++ ['@'])
    (notMem_toString (c := '(') rfl offset) (notMem_toString (c := '(') rfl offset')
  rw [List.append_left_inj, String.toList_inj, String.toList_inj, toString_inj] at hcut
  rw [← hcut, tableClassName, tableClassName, String.append_left_inj, ← String.toList_inj]
  simp

/-- The offset stands after the last bar. -/
theorem docTableClassName_inj : docTableClassName path offset = docTableClassName path' offset' ↔
    path = path' ∧ offset = offset' := by
  have hcut := append_cons_inj_of_last path.toList path'.toList
    (notMem_toString (c := '|') rfl offset) (notMem_toString (c := '|') rfl offset')
  rw [String.toList_inj, String.toList_inj, toString_inj] at hcut
  rw [← hcut, docTableClassName, docTableClassName, ← String.toList_inj]
  simp

/-- The offset stands before the first at sign. -/
theorem localClassName_inj : localClassName path offset = localClassName path' offset' ↔
    path = path' ∧ offset = offset' := by
  have hcut := append_cons_inj_of_first path.toList path'.toList
    (notMem_toString (c := '@') rfl offset) (notMem_toString (c := '@') rfl offset')
  rw [String.toList_inj, String.toList_inj, toString_inj, and_comm] at hcut
  rw [← hcut, localClassName, localClassName, ← String.toList_inj]
  simp

end

/-- The environment, which keeps its name, has none that begins with a dollar sign. -/
theorem globalClassName_inj {var var' : String} :
    globalClassName var = globalClassName var' ↔ var = var' := by
  have henv (var : String) : "$" ++ var ≠ envWord := fun heq => by
    have hfirst := congrArg String.toList heq
    rw [String.toList_append] at hfirst
    cases hfirst
  refine ⟨fun heq => ?_, congrArg globalClassName⟩
  simp only [globalClassName] at heq
  split_ifs at heq with hvar hvar' hvar'
  · exact hvar.trans hvar'.symm
  · exact absurd (heq.symm.trans hvar) (henv var')
  · exact absurd (heq.trans hvar') (henv var)
  · exact (String.append_right_inj "$").mp heq

/-! Sites of declarations. -/

theorem literalClassTy_eq {env : Env} {id : NodeId} (fields : List NodeId)
    (hid : env.program.fileOf? id ≠ none) : ∃ c, literalClassTy env id fields = .cls c ∧
      c.name = tableClassName (env.program.pathOf id) (env.program.offset id) := by
  obtain ⟨f, hf⟩ := Option.ne_none_iff_exists'.mp hid
  refine ⟨.tableLiteral f.path f.id id (env.program.offset id) fields.length, ?_, ?_⟩
  · rw [literalClassTy, hf]
  · rw [Program.pathOf, hf]
    rfl

namespace Draft

variable {d : Draft}

/-- A node of a file is what the walk through the file took at its offset. -/
theorem link_of_fileOf? {id : NodeId} {f : SourceFile} (h : d.build.fileOf? id = some f) :
    ∃ g parent?, d.files[f.id]? = some g ∧ f.path = g.path ∧
      (linksFrom d.nodes g.root)[d.build.offset id]? = some (id, parent?) := by
  obtain ⟨place, hplace, hfile⟩ := fileOf?_eq_some.mp h
  obtain ⟨g, hg, rfl⟩ := getElem?_files.mp hfile
  obtain ⟨g', hg', hlink⟩ := mem_placements.mp (mem_placements_of_place? hplace)
  obtain rfl : g = g' := Option.some_inj.mp (hg.symm.trans hg')
  have hoffset : d.build.offset id = place.offset := by rw [Program.offset, hplace]; rfl
  exact ⟨g, place.parent?, hg, rfl, hoffset ▸ List.mem_zipIdx_iff_getElem?.mp hlink⟩

/-- Where no two files have the same path, a path and an offset tell a node from the others. -/
theorem eq_of_site (hpaths : (d.files.toList.map (·.path)).Nodup) {a b : NodeId}
    (ha : d.build.fileOf? a ≠ none) (hb : d.build.fileOf? b ≠ none)
    (hpath : d.build.pathOf a = d.build.pathOf b) (hoffset : d.build.offset a = d.build.offset b) :
    a = b := by
  obtain ⟨f, hf⟩ := Option.ne_none_iff_exists'.mp ha
  obtain ⟨f', hf'⟩ := Option.ne_none_iff_exists'.mp hb
  obtain ⟨g, parent?, hg, hown, hlink⟩ := link_of_fileOf? hf
  obtain ⟨g', parent?', hg', hown', hlink'⟩ := link_of_fileOf? hf'
  have hsame : g.path = g'.path := by
    rw [← hown, ← hown']
    simpa [Program.pathOf, hf, hf'] using hpath
  have hfile : f.id = f'.id := by
    have hpathAt {file : FileId} {g : DraftFile} (hg : d.files[file]? = some g) :
        (d.files.toList.map (·.path))[file]? = some g.path := by
      rw [List.getElem?_map, Array.getElem?_toList, hg]
      rfl
    have hlt := (List.getElem?_eq_some_iff.mp (hpathAt hg)).1
    refine (List.getElem?_inj hlt hpaths).mp ?_
    rw [hpathAt hg, hpathAt hg', hsame]
  rw [hfile] at hg
  obtain rfl : g = g' := Option.some_inj.mp (hg.symm.trans hg')
  rw [hoffset] at hlink
  exact congrArg Prod.fst (Option.some_inj.mp (hlink.symm.trans hlink'))

/-- Where no two files have the same path, the classes of two table literals have different names,
and so have the classes of two locals. The name of the class of a doc table tells its path and its
offset, and that of a global the global. -/
theorem class_names_distinct (hpaths : (d.files.toList.map (·.path)).Nodup) :
    (∀ a b, a ≠ b → d.build.fileOf? a ≠ none → d.build.fileOf? b ≠ none →
      tableClassName (d.build.pathOf a) (d.build.offset a)
        ≠ tableClassName (d.build.pathOf b) (d.build.offset b) ∧
      localClassName (d.build.pathOf a) (d.build.offset a)
        ≠ localClassName (d.build.pathOf b) (d.build.offset b)) ∧
    (∀ env : Env, env.program = d.build → ∀ a b fields fields', a ≠ b →
      d.build.fileOf? a ≠ none → d.build.fileOf? b ≠ none →
      ∃ c c', literalClassTy env a fields = .cls c ∧ literalClassTy env b fields' = .cls c' ∧
        c.name ≠ c'.name) ∧
    (∀ path path' offset offset', docTableClassName path offset = docTableClassName path' offset' →
      path = path' ∧ offset = offset') ∧
    (∀ var var', globalClassName var = globalClassName var' → var = var') := by
  have hsites (a b : NodeId) (hne : a ≠ b) (ha : d.build.fileOf? a ≠ none)
      (hb : d.build.fileOf? b ≠ none) :
      ¬(d.build.pathOf a = d.build.pathOf b ∧ d.build.offset a = d.build.offset b) :=
    fun ⟨hpath, hoffset⟩ => hne (eq_of_site hpaths ha hb hpath hoffset)
  refine ⟨fun a b hne ha hb => ?_, fun env henv a b fields fields' hne ha hb => ?_,
    fun _ _ _ _ => docTableClassName_inj.mp, fun _ _ => globalClassName_inj.mp⟩
  · exact ⟨mt tableClassName_inj.mp (hsites a b hne ha hb),
      mt localClassName_inj.mp (hsites a b hne ha hb)⟩
  · rw [← henv] at ha hb
    obtain ⟨c, hc, hname⟩ := literalClassTy_eq fields ha
    obtain ⟨c', hc', hname'⟩ := literalClassTy_eq fields' hb
    refine ⟨c, c', hc, hc', fun hsame => ?_⟩
    rw [hname, hname', tableClassName_inj, henv] at hsame
    rw [henv] at ha hb
    exact hsites a b hne ha hb hsame

/-- The same two lines, `local t = {}` and `local u = {}`, in two files. The path of the second one
is what a local at offset 3 of the first one is called. -/
def twinFiles : Draft where
  nodes := #[.nameDef "t", .table [], .localDef [0] [1], .nameDef "u", .table [],
    .localDef [3] [4], .block [2, 5], .nameDef "t", .table [], .localDef [7] [8], .nameDef "u",
    .table [], .localDef [10] [11], .block [9, 12]]
  files := #[⟨"m(1)", 6, false⟩, ⟨"3@m(1)", 13, false⟩]

/-- Two tables of one file, and two tables and two locals of different files. -/
theorem class_names_distinct_twinFiles :
    twinFiles.TreeShaped ∧ (twinFiles.files.toList.map (·.path)).Nodup ∧
    tableClassName (twinFiles.build.pathOf 1) (twinFiles.build.offset 1)
      ≠ tableClassName (twinFiles.build.pathOf 4) (twinFiles.build.offset 4) ∧
    tableClassName (twinFiles.build.pathOf 1) (twinFiles.build.offset 1)
      ≠ tableClassName (twinFiles.build.pathOf 8) (twinFiles.build.offset 8) ∧
    localClassName (twinFiles.build.pathOf 3) (twinFiles.build.offset 3)
      ≠ localClassName (twinFiles.build.pathOf 7) (twinFiles.build.offset 7) ∧
    docTableClassName "m|1" 2 ≠ docTableClassName "m" 12 ∧
    globalClassName "_G" ≠ globalClassName "$_G" := by
  have hpaths : (twinFiles.files.toList.map (·.path)).Nodup := by decide
  obtain ⟨hsites, -, hdoc, hglobal⟩ := class_names_distinct hpaths
  refine ⟨⟨.of_descending (by decide), by decide⟩, hpaths,
    (hsites 1 4 (by decide) (by decide) (by decide)).1,
    (hsites 1 8 (by decide) (by decide) (by decide)).1,
    (hsites 3 7 (by decide) (by decide) (by decide)).2, fun h => ?_, fun h => ?_⟩
  · exact absurd (hdoc _ _ _ _ h).2 (by decide)
  · exact absurd (hglobal _ _ h) (by decide)

end Draft

end LuaTypes
