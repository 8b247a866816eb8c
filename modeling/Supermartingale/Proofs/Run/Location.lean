import Mathlib.Data.List.TakeWhile
import Supermartingale.Proofs.Run.Omission

/-!
# Where relative paths lead

The paths in a configuration are seen from the folder that the output lies in. The output that is chosen where none is
given lies beside the input, so only an output in another folder takes the paths away from the input.
-/

namespace Supermartingale

open List
open SessionM (runIn runIn_bind_eq_ok runIn_liftM)

/-- A folder does not end in a slash, unless it is the root. -/
theorem Path.folder_ends (p : String) : (folder p).toList.getLast? ≠ some '/' ∨ ∀ c ∈ (folder p).toList, c = '/' := by
  simp only [folder, cut, String.toList_ofList, reverse_reverse]
  split
  · rename_i bare
    right
    simpa using bare
  · left
    rw [getLast?_reverse]
    intro slash
    have other := head?_dropWhile_not (· == '/') (p.toList.reverse.dropWhile (· != '/'))
    simp [slash] at other

theorem Path.folder_join_temp (p : String) : folder (join (folder p) "temp") = folder p := by
  generalize ends : folder p = x
  have fine := ends ▸ folder_ends p
  have relative : isAbsolute "temp" = false := by decide
  have temp : "temp".toList = ['t', 'e', 'm', 'p'] := rfl
  refine String.toList_injective ?_
  rcases x.toList.eq_nil_or_concat' with nothing | ⟨cs, c, whole⟩
  · rw [String.toList_eq_nil_iff] at nothing
    rw [nothing]
    decide
  · have filled : x ≠ "" := fun empty => by simp [empty] at whole
    -- behind slashes alone no other one is put in, and cutting off the name leaves them all
    by_cases slash : c = '/'
    · subst slash
      have all : ∀ d ∈ cs, d = '/' := fun d mem => fine.resolve_left (by simp [whole]) d (by simp [whole, mem])
      have slashes : cs.reverse.dropWhile (· == '/') = [] := by simpa using all
      simp [folder, join, cut, relative, whole, temp, slashes]
    · simp [folder, join, cut, relative, filled, whole, temp, slash]

theorem Input.resolve_relative (here base : String) {q : String} (relative : Path.isAbsolute q = false) :
    resolve here base (.text q) = .ok (.text (Path.absolute here (Path.join base q))) := by
  simp [resolve, Value.isNull, Value.toTextOnly, relative]

/-- The text of a file is decoded as a list of characters. -/
theorem Input.mergeFile_eq {files : Files} {path : String} {cs : List Char} {runnable : Bool} (fields : Fields)
    (file : files.entry? path = some (.file (String.ofList cs) runnable)) :
    mergeFile files Json.read fields path =
      mergeFile files (fun _ => Json.readChars (Text.unifyChars cs)) fields path := by
  simp only [mergeFile, Files.read, file, ok_bind, Json.read, Text.unifyLines, String.toList_ofList]

theorem Files.isFolder_of_isFile {f : Files} {p : String} (file : f.isFile p) : f.isFolder p = false := by
  unfold isFile at file
  unfold isFolder
  split at file <;> simp_all

namespace Run

variable {σ σ' τ : Session} {input output : String} {p : Place} {r : Parsed}

theorem runIn_place (file : σ.files.isFile input) (placed : runIn (place input output) σ = (.ok p, σ')) :
    p = ⟨input, if output.isEmpty then Path.join (Path.folder input) "temp" else output⟩ := by
  obtain ⟨files, _, current, placed⟩ := runIn_bind_eq_ok.mp placed
  cases current
  simp only [Files.isFolder_of_isFile file, Bool.false_eq_true, if_false] at placed
  generalize (if output.isEmpty then Path.join (Path.folder input) "temp" else output) = out at placed ⊢
  split at placed
  · obtain ⟨_, _, -, rest⟩ := runIn_bind_eq_ok.mp placed
    cases rest
    rfl
  · cases placed
    rfl

theorem runIn_parse (file : σ.files.isFile input) :
    runIn (parse ⟨input, output⟩) σ = runIn (do
      return ⟨← (Input.merged σ.files [output, input]).bind (Input.ofFields σ.files.here (Path.folder output))⟩) σ := by
  have start (rest : Files → SessionM Parsed) : runIn (SessionM.files >>= rest) σ = runIn (rest σ.files) σ := rfl
  rw [parse, start]
  simp only [Files.isFolder_of_isFile file, file, Bool.false_eq_true, if_false, if_true, pure_bind]
  rfl

/-- Relative paths are seen from the folder of the output, and so from that of the input if no output is given. -/
theorem stored_from_output (file : σ.files.isFile input) (placed : runIn (place input output) σ = (.ok p, σ'))
    (file' : σ'.files.isFile input) :
    Path.folder p.output = Path.folder (if output.isEmpty then input else output) ∧
    ∀ r τ, runIn (parse p) σ' = (.ok r, τ) → ∃ fields, Input.merged σ'.files [p.output, input] = .ok fields ∧
      ∀ q, Path.isAbsolute q = false →
        let stored := Value.text (Path.absolute σ'.files.here (Path.join (Path.folder p.output) q))
        (Input.got fields "specification" "hoa_path" = .text q → r.input.specification.automaton = stored) ∧
          (Input.got fields "synthesis_config" "owl_path" = .text q → r.input.specification.translator = stored) := by
  have same := runIn_place file placed
  subst same
  refine ⟨?_, fun r τ parsed => ?_⟩
  · dsimp only
    split
    · exact Path.folder_join_temp input
    · rfl
  · rw [runIn_parse file'] at parsed
    obtain ⟨i, _, read, rest⟩ := runIn_bind_eq_ok.mp parsed
    cases rest
    obtain ⟨fields, merged, made⟩ := bind_eq_ok.mp (Prod.mk.inj ((runIn_liftM _).symm.trans read)).1
    -- the output stands first among the files, so its folder is the base of both paths
    obtain ⟨-, translator, automaton⟩ := Input.holds_of_ofFields made
    refine ⟨fields, merged, fun q relative => ⟨fun given => ?_, fun given => ?_⟩⟩
    · rw [given, Input.resolve_relative _ _ relative] at automaton
      exact (Except.ok.inj automaton).symm
    · rw [given, Input.resolve_relative _ _ relative] at translator
      exact (Except.ok.inj translator).symm

def walkText : String :=
  "\x7b\"specification\":\x7b\"hoa_path\":\"a.hoa\"\x7d,\"synthesis_config\":\x7b\"owl_path\":\"owl\",
  \"maximal_polynomial_degree\":1,\"probability_threshold\":1,\"theorem_name\":0,\"solver_name\":0\x7d,
  \"disturbance\":\x7b\"distribution_name\":0,\"disturbance_parameters\":0\x7d,
  \"stochastic_dynamical_system\":\x7b\"state_space_dimension\":1,\"control_space_dimension\":1,
  \"disturbance_space_dimension\":1,\"dynamics\":[],\"system_space\":\"\",\"initial_space\":\"\"\x7d\x7d"

def oneFile : Session where
  files := ⟨"/", [("/x/c.json", .file walkText false), ("/x/temp", .folder), ("/y/o", .folder)], []⟩

theorem isFile_oneFile : oneFile.files.isFile "/x/c.json" := by decide +kernel

theorem oneFile_output : ∃ p σ' r τ, runIn (place "/x/c.json" "") oneFile = (.ok p, σ') ∧
    runIn (parse p) σ' = (.ok r, τ) ∧ r.input.specification.automaton = .text "/x/a.hoa" ∧
      r.input.specification.translator = .text "/x/owl" := by
  have placed : runIn (place "/x/c.json" "") oneFile = (.ok ⟨"/x/c.json", "/x/temp"⟩, oneFile) := rfl
  have found : (Input.merged oneFile.files ["/x/temp", "/x/c.json"]).toOption.any fun fields =>
      (Input.got fields "specification" "hoa_path").isText "a.hoa" &&
        (Input.got fields "synthesis_config" "owl_path").isText "owl" &&
        (Input.ofFields oneFile.files.here (Path.folder "/x/temp") fields).isOk := by
    -- the document is decoded as a list of characters, not through positions of a string
    have jsons : ["/x/temp", "/x/c.json"].filter Input.isJson = ["/x/c.json"] := by decide +kernel
    rw [Input.merged, jsons, Input.mergeFiles, foldlM_cons, Input.mergeFile_eq _ rfl]
    decide +kernel
  obtain ⟨fields, merged, checked⟩ := exists_of_any found
  obtain ⟨both, made⟩ := Bool.and_eq_true_iff.mp checked
  obtain ⟨automaton, translator⟩ := Bool.and_eq_true_iff.mp both
  obtain ⟨i, made⟩ := exists_of_isOk made
  have parsed : runIn (parse ⟨"/x/c.json", "/x/temp"⟩) oneFile = (.ok ⟨i⟩, oneFile) := by
    rw [runIn_parse isFile_oneFile, merged, Except.bind, made]
    rfl
  obtain ⟨_, same, stored⟩ := (stored_from_output isFile_oneFile placed isFile_oneFile).2 _ _ parsed
  cases merged.symm.trans same
  exact ⟨_, _, _, _, placed, parsed,
    ((stored "a.hoa" (by decide)).1 (Value.eq_of_isText _ _ automaton)).trans (congrArg _ (by decide +kernel)),
    ((stored "owl" (by decide)).2 (Value.eq_of_isText _ _ translator)).trans (congrArg _ (by decide +kernel))⟩

/-- With the output elsewhere, the automaton beside the configuration is not found. -/
theorem stored_elsewhere : runIn (place "/x/c.json" "/y/o") oneFile = (.ok ⟨"/x/c.json", "/y/o"⟩, oneFile) ∧
    (runIn (parse ⟨"/x/c.json", "/y/o"⟩) oneFile).1.toOption.any (fun r =>
      r.input.specification.automaton.isText "/y/a.hoa" && r.input.specification.translator.isText "/y/owl") ∧
    Path.absolute "/" (Path.join (Path.folder "/x/c.json") "a.hoa") = "/x/a.hoa" := by
  refine ⟨rfl, ?_, by decide +kernel⟩
  have jsons : ["/y/o", "/x/c.json"].filter Input.isJson = ["/x/c.json"] := by decide +kernel
  rw [runIn_parse isFile_oneFile, Input.merged, jsons, Input.mergeFiles, foldlM_cons, Input.mergeFile_eq _ rfl]
  decide +kernel

end Run

end Supermartingale
