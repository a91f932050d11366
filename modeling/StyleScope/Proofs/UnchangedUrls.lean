/-
# A map of urls that changes none

A map of urls is handed each url as it is written, and what it returns is
escaped. So a map that returns every url as it is still changes those that are
written with escapes: each backslash is escaped once more. A map also makes
values be read that otherwise are kept unread, and reading refuses a value whose
calls nest beyond the limit. Nothing else is different from having no map.

With a map, the names of a value are marked as without one, and then its calls
of `url` are mapped (`mapped_shorthandNode`, `mapped_nameNode`). If the map
changes no url, that puts a backslash in front of each character that
`escapesOf` lists and does nothing else. So a declaration is scoped as without a
map exactly if its urls are plain (`localizeDeclaration_eq_iff`), and a sheet is
if all its declarations are, as the passes find them
(`transform_eq_of_hasPlainUrls`).

Key definitions: `Scope.argumentsOf`, `Scope.escapesOf`, `Scope.hasPlainUrls`,
`Scope.Job.visited`.
Key theorems: `Scope.localizeDeclaration_eq_iff`,
`Scope.transform_eq_of_hasPlainUrls`.
-/
import StyleScope.Proofs.AnimationNames
import StyleScope.Proofs.DeclarationScope
import StyleScope.Proofs.EscapedUrls
import StyleScope.Proofs.ValuePrint

namespace StyleScope

namespace Traced

variable {ε α β : Type}

/-- The result of a sequence depends on the results of its parts. -/
theorem result_bind_congr {x y : Traced ε α} {f g : α → Traced ε β} (hx : x.result = y.result)
    (hf : ∀ a, y.result = .ok a → (f a).result = (g a).result) :
    (x >>= f).result = (y >>= g).result := by
  rw [result_bind, result_bind, hx]
  cases hy : y.result with
  | error e => rfl
  | ok a => exact hf a hy

/-- The result of a run along a list depends on the results at its elements. -/
theorem result_mapM_congr {f g : α → Traced ε β} {as : List α}
    (h : ∀ a ∈ as, (f a).result = (g a).result) : (as.mapM f).result = (as.mapM g).result := by
  induction as with
  | nil => rfl
  | cons a as ih =>
    have htail := ih fun b hb => h b (List.mem_cons_of_mem a hb)
    rw [List.mapM_cons, List.mapM_cons]
    exact result_bind_congr (h a List.mem_cons_self) fun _ _ =>
      result_bind_congr htail fun _ _ => rfl

end Traced

/-- Every element of the second list is what one of the first becomes. -/
theorem Each.exists_of_mem_right {α β : Type} {R : α → β → Urls → Prop} {as : List α}
    {bs : List β} {us : Urls} (h : Each R as bs us) {b : β} (hb : b ∈ bs) :
    ∃ a ∈ as, ∃ vs, R a b vs := by
  induction h with
  | nil => cases hb
  | cons hr _ ih =>
    rcases List.mem_cons.mp hb with rfl | hb
    · exact ⟨_, List.mem_cons_self, _, hr⟩
    · obtain ⟨a, ha, vs, hr⟩ := ih hb
      exact ⟨a, List.mem_cons_of_mem _ ha, vs, hr⟩

namespace Scope

open Sheet (Declaration)
open Text
open Value (Node)

/-! ### Calls of `url` -/

mutual

/-- The node with the arguments of its calls of `url` mapped, where `enters`
tells which functions are looked into. -/
def mapCallsIn (enters : String → Bool) (f : String → String) : Node → Node
  | .function start name before arguments after unclosed =>
    if isUrl name then
      .function start name before (arguments.map (mapArgument f)) after unclosed
    else if enters name then
      .function start name before (mapCalls enters f arguments) after unclosed
    else .function start name before arguments after unclosed
  | n => n

/-- The nodes with the arguments of all calls of `url` mapped. -/
def mapCalls (enters : String → Bool) (f : String → String) : List Node → List Node
  | [] => []
  | n :: ns => mapCallsIn enters f n :: mapCalls enters f ns

end

mutual

/-- The arguments of the calls of `url` in a node. -/
def argumentsIn (enters : String → Bool) : Node → List Node
  | .function _ name _ arguments _ _ =>
    if isUrl name then arguments
    else if enters name then argumentsOf enters arguments
    else []
  | _ => []

/-- The arguments of the calls of `url` in the nodes, in document order. -/
def argumentsOf (enters : String → Bool) : List Node → List Node
  | [] => []
  | n :: ns => argumentsIn enters n ++ argumentsOf enters ns

end

/-- The characters of an argument of `url` that a backslash is put in front of
when it is replaced by itself. -/
def escapesOf : Node → List Char
  | .string _ quote text _ => text.toList.filter (isQuotedSpecial quote)
  | .word _ text => text.toList.filter isBareSpecial
  | _ => []

section Calls

variable {enters : String → Bool}
variable {f : String → String}

mutual

/-- Replacing urls maps the calls that are not inside of a substitution. -/
theorem mapUrlsIn_eq_mapCallsIn : ∀ n : Node,
    mapUrlsIn f n = mapCallsIn (fun name => !isSubstitution name) f n
  | .function start name before arguments after unclosed => by
    rw [mapUrlsIn, mapCallsIn, mapUrls_eq_mapCalls arguments]
    cases isSubstitution name <;> rfl
  | .word .. | .string .. | .divider .. | .space .. | .comment .. => by
    rw [mapUrlsIn, mapCallsIn] <;> simp

theorem mapUrls_eq_mapCalls : ∀ ns : List Node,
    mapUrls f ns = mapCalls (fun name => !isSubstitution name) f ns
  | [] => by
    rw [mapUrls, mapCalls]
  | n :: ns => by
    rw [mapUrls, mapCalls, mapUrlsIn_eq_mapCallsIn n, mapUrls_eq_mapCalls ns]

end

end Calls

/-! ### A map that changes no url -/

section Escapes

variable (special : Char → Bool)

theorem length_escapeChars (cs : List Char) :
    (escapeChars special cs).length = cs.length + (cs.filter special).length := by
  induction cs with
  | nil =>
    rw [escapeChars]
    rfl
  | cons c cs ih =>
    by_cases hc : special c
    · rw [escapeChars_of_special hc, List.filter_cons_of_pos hc]
      simp only [List.length_cons]
      omega
    · rw [escapeChars_of_not (by simpa using hc), List.filter_cons_of_neg hc]
      simp only [List.length_cons]
      omega

theorem escapeChars_eq_self {cs : List Char} (h : cs.filter special = []) :
    escapeChars special cs = cs := by
  rw [List.filter_eq_nil_iff] at h
  induction cs with
  | nil => rw [escapeChars]
  | cons c cs ih =>
    rw [List.forall_mem_cons] at h
    rw [escapeChars_of_not (by simpa using h.1), ih h.2]

end Escapes

section Unchanged

variable {enters : String → Bool}
theorem mapArgument_eq_self {n : Node} (h : escapesOf n = []) : mapArgument id n = n := by
  cases n with
  | string start quote text unclosed =>
    have htext : escapeQuoted quote text = text := by
      rw [← String.toList_inj, toList_escapeQuoted]
      exact escapeChars_eq_self _ h
    rw [mapArgument, id, htext]
  | word start text =>
    have htext : escapeUnquoted text = text := by
      rw [← String.toList_inj, toList_escapeUnquoted]
      exact escapeChars_eq_self _ h
    rw [mapArgument, id, htext]
  | _ => rfl

theorem length_mapArgument (n : Node) :
    (mapArgument id n).print.length = n.print.length + (escapesOf n).length := by
  cases n with
  | string start quote text unclosed =>
    have htext : (escapeQuoted quote text).length =
        text.length + (text.toList.filter (isQuotedSpecial quote)).length := by
      rw [← String.length_toList, toList_escapeQuoted, length_escapeChars, String.length_toList]
    rw [mapArgument, id, Value.Node.print, Value.Node.print, escapesOf]
    simp only [String.length_append, htext]
    omega
  | word start text =>
    rw [mapArgument, id, Value.Node.print, Value.Node.print, escapesOf, ← String.length_toList,
      toList_escapeUnquoted, length_escapeChars, String.length_toList]
  | _ => rfl

/-- The backslashes that are put into the arguments are all that is added. -/
theorem length_map_mapArgument (ns : List Node) :
    (Value.print (ns.map (mapArgument id))).length =
      (Value.print ns).length + (ns.flatMap escapesOf).length := by
  induction ns with
  | nil => rfl
  | cons n ns ih =>
    simp only [List.map_cons, Value.print_cons, String.length_append, List.flatMap_cons,
      List.length_append, ih, length_mapArgument n]
    omega

mutual

theorem mapCallsIn_eq_self : ∀ n : Node, (∀ m ∈ argumentsIn enters n, escapesOf m = []) →
    mapCallsIn enters id n = n
  | .function start name before arguments after unclosed, h => by
    rw [argumentsIn] at h
    rw [mapCallsIn]
    split at h
    next hu =>
      have hself : arguments.map (mapArgument id) = arguments :=
        (List.map_congr_left fun m hm => mapArgument_eq_self (h m hm)).trans (List.map_id _)
      rw [if_pos hu, hself]
    next hu =>
      rw [if_neg hu]
      split at h
      next he => rw [if_pos he, mapCalls_eq_self arguments h]
      next he => rw [if_neg he]
  | .word .., _ | .string .., _ | .divider .., _ | .space .., _ | .comment .., _ => by
    rw [mapCallsIn]
    simp

theorem mapCalls_eq_self : ∀ ns : List Node,
    (∀ m ∈ argumentsOf enters ns, escapesOf m = []) → mapCalls enters id ns = ns
  | [], _ => by rw [mapCalls]
  | n :: ns, h => by
    rw [argumentsOf, List.forall_mem_append] at h
    rw [mapCalls, mapCallsIn_eq_self n h.1, mapCalls_eq_self ns h.2]

end

mutual

theorem length_mapCallsIn : ∀ n : Node, (mapCallsIn enters id n).print.length =
    n.print.length + ((argumentsIn enters n).flatMap escapesOf).length
  | .function start name before arguments after unclosed => by
    rw [mapCallsIn, argumentsIn]
    split
    next =>
      simp only [Value.Node.print, String.length_append, length_map_mapArgument arguments]
      omega
    next =>
      split
      next =>
        simp only [Value.Node.print, String.length_append, length_mapCalls arguments]
        omega
      next => rfl
  | .word .. | .string .. | .divider .. | .space .. | .comment .. => by
    rw [mapCallsIn, argumentsIn] <;> simp

theorem length_mapCalls : ∀ ns : List Node, (Value.print (mapCalls enters id ns)).length =
    (Value.print ns).length + ((argumentsOf enters ns).flatMap escapesOf).length
  | [] => by
    rw [mapCalls, argumentsOf]
    rfl
  | n :: ns => by
    simp only [mapCalls, argumentsOf, Value.print_cons, String.length_append, List.flatMap_append,
      List.length_append, length_mapCallsIn n, length_mapCalls ns]
    omega

end

/-- **A map that changes no url leaves the text of a value exactly if nothing in
its urls is escaped.** -/
theorem print_mapCalls_eq_iff (ns : List Node) :
    Value.print (mapCalls enters id ns) = Value.print ns ↔
      ∀ n ∈ argumentsOf enters ns, escapesOf n = [] := by
  constructor
  · intro h
    have hlength : (Value.print (mapCalls enters id ns)).length = _ := length_mapCalls ns
    rw [h] at hlength
    have hnone : (argumentsOf enters ns).flatMap escapesOf = [] := by
      rw [← List.length_eq_zero_iff]
      omega
    exact List.flatMap_eq_nil_iff.mp hnone
  · intro h
    rw [mapCalls_eq_self ns h]

end Unchanged

/-! ### Names and urls -/

/-- Of the node `n`, scoping makes `m` where there is no map of urls. Where `f`
is the map it makes `m'`, which is `m` with the urls mapped, and these are the
urls of `n`. -/
structure Mapped (f : String → String) (n m m' : Node) : Prop where
  map : m' = mapCallsIn Role.enters f m
  arguments : argumentsIn Role.enters m = argumentsIn Role.enters n

/-- The same of a list of nodes. -/
structure MappedAll (f : String → String) (ns ms ms' : List Node) : Prop where
  map : ms' = mapCalls Role.enters f ms
  arguments : argumentsOf Role.enters ms = argumentsOf Role.enters ns

section Names

variable {f : String → String}

theorem mappedAll_nil : MappedAll f [] [] [] :=
  ⟨by rw [mapCalls], rfl⟩

theorem MappedAll.cons {n m m' : Node} {ns ms ms' : List Node} (hs : MappedAll f ns ms ms')
    (h : Mapped f n m m') : MappedAll f (n :: ns) (m :: ms) (m' :: ms') := by
  constructor
  · rw [mapCalls, h.map, hs.map]
  · rw [argumentsOf, argumentsOf, h.arguments, hs.arguments]

/-- A node that is no call has no urls, whatever becomes of it. -/
theorem mapped_of_not {n m : Node} (hn : n.functionName? = none) (hm : m.functionName? = none) :
    Mapped f n m m := by
  constructor
  · cases m with
    | function => cases hm
    | _ =>
      rw [mapCallsIn]
      simp
  · cases n with
    | function => cases hn
    | _ =>
      cases m with
      | function => cases hm
      | _ => simp [argumentsIn]

/-- The two walks agree on which calls are of `url`. -/
theorem isUrl_iff {name : String} : isUrl name ↔ Role.ofName name = .url := by
  have hlower : lower "url" = "url" := by decide
  rw [isUrl, sameWord, hlower, decide_eq_true_iff]
  constructor
  · intro hu
    simp [Role.ofName, hu]
  · intro hr
    by_contra hu
    unfold Role.ofName at hr
    dsimp only at hr
    rw [if_neg hu] at hr
    split_ifs at hr

variable {name : String} (start : Nat) (before : String) (arguments : List Node)
  (after : String) (unclosed : Bool)

/-- A call that is neither of `url` nor looked into is left alone. -/
theorem mapped_of_not_enters (hu : Role.ofName name ≠ .url) (he : Role.enters name = false) :
    Mapped f (.function start name before arguments after unclosed)
      (.function start name before arguments after unclosed)
      (.function start name before arguments after unclosed) := by
  constructor
  · rw [mapCallsIn, if_neg (by simpa [isUrl_iff] using hu), if_neg (by simp [he])]
  · rfl

/-- A name with its scope has no url, and neither has the word that replaces it. -/
theorem mapped_unwrapScoped {keyword : Keyword} (h : Role.ofName name = .scoped keyword) :
    Mapped f (.function start name before arguments after unclosed)
      (unwrapScoped keyword (.function start name before arguments after unclosed))
      (unwrapScoped keyword (.function start name before arguments after unclosed)) := by
  have hu : Role.ofName name ≠ .url := by simp [h]
  have he : Role.enters name = false := by rw [Role.enters, h]
  unfold unwrapScoped
  dsimp only
  split
  next start' word =>
    constructor
    · rw [mapCallsIn]
      simp
    · rw [argumentsIn, argumentsIn, if_neg (by simpa [isUrl_iff] using hu), if_neg (by simp [he])]
      simp
  next => exact mapped_of_not_enters start before arguments after unclosed hu he

theorem mapped_mapCall {isGlobal : Bool} {aliases : List String} {f : UrlMap}
    (h : Role.ofName name = .url) :
    Mapped (f isGlobal) (.function start name before arguments after unclosed)
      (Place.mapCall ⟨isGlobal, aliases, none⟩
        (.function start name before arguments after unclosed))
      (Place.mapCall ⟨isGlobal, aliases, some f⟩
        (.function start name before arguments after unclosed)) := by
  constructor
  · rw [Place.mapCall, Place.mapCall, mapCallsIn, if_pos (isUrl_iff.mpr h)]
  · rw [Place.mapCall]

/-- In a call that is looked into the arguments are mapped. -/
theorem mapped_entered {ms ms' : List Node} (hu : Role.ofName name ≠ .url)
    (he : Role.enters name) (hs : MappedAll f arguments ms ms') :
    Mapped f (.function start name before arguments after unclosed)
      (.function start name before ms after unclosed)
      (.function start name before ms' after unclosed) := by
  have hurl : ¬ isUrl name = true := by simpa [isUrl_iff] using hu
  constructor
  · rw [mapCallsIn, if_neg hurl, if_pos he, hs.map]
  · rw [argumentsIn, argumentsIn, if_neg hurl, if_neg hurl, if_pos he, if_pos he, hs.arguments]

end Names

section Walks

variable {isGlobal : Bool} {aliases : List String} {f : UrlMap}

mutual

/-- Marking the names of the shorthand does not depend on a map of urls. -/
theorem mapped_shorthandNode : ∀ (n : Node) (candidates : Bool) (seen : List String),
    Mapped (f isGlobal) n (shorthandNode ⟨isGlobal, aliases, none⟩ candidates n seen).1
        (shorthandNode ⟨isGlobal, aliases, some f⟩ candidates n seen).1 ∧
      (shorthandNode ⟨isGlobal, aliases, some f⟩ candidates n seen).2 =
        (shorthandNode ⟨isGlobal, aliases, none⟩ candidates n seen).2
  | .function start name before arguments after unclosed, candidates, seen => by
    rw [shorthandNode, shorthandNode]
    cases hr : Role.ofName name with
    | closed =>
      have hu : Role.ofName name ≠ .url := by simp [hr]
      have he : Role.enters name = false := by rw [Role.enters, hr]
      exact ⟨mapped_of_not_enters start before arguments after unclosed hu he, rfl⟩
    | «scoped» keyword =>
      exact ⟨mapped_unwrapScoped start before arguments after unclosed hr, rfl⟩
    | url => exact ⟨mapped_mapCall start before arguments after unclosed hr, rfl⟩
    | steps =>
      obtain ⟨hs, hseen⟩ := mappedAll_shorthandNodes arguments false seen
      have hu : Role.ofName name ≠ .url := by simp [hr]
      have he : Role.enters name := by rw [Role.enters, hr]
      exact ⟨mapped_entered start before arguments after unclosed hu he hs, hseen⟩
    | plain =>
      obtain ⟨hs, hseen⟩ := mappedAll_shorthandNodes arguments true seen
      have hu : Role.ofName name ≠ .url := by simp [hr]
      have he : Role.enters name := by rw [Role.enters, hr]
      exact ⟨mapped_entered start before arguments after unclosed hu he hs, hseen⟩
  | .word start text, candidates, seen => by
    rw [shorthandNode, shorthandNode]
    cases candidates with
    | true => exact ⟨mapped_of_not rfl rfl, rfl⟩
    | false => exact ⟨mapped_of_not rfl rfl, rfl⟩
  | .string .., _, _ | .divider .., _, _ | .space .., _, _ | .comment .., _, _ => by
    unfold shorthandNode
    exact ⟨mapped_of_not rfl rfl, rfl⟩

theorem mappedAll_shorthandNodes : ∀ (ns : List Node) (candidates : Bool) (seen : List String),
    MappedAll (f isGlobal) ns (shorthandNodes ⟨isGlobal, aliases, none⟩ candidates ns seen).1
        (shorthandNodes ⟨isGlobal, aliases, some f⟩ candidates ns seen).1 ∧
      (shorthandNodes ⟨isGlobal, aliases, some f⟩ candidates ns seen).2 =
        (shorthandNodes ⟨isGlobal, aliases, none⟩ candidates ns seen).2
  | [], candidates, seen => by
    rw [shorthandNodes, shorthandNodes]
    exact ⟨mappedAll_nil, rfl⟩
  | n :: ns, candidates, seen => by
    obtain ⟨hn, hseen⟩ := mapped_shorthandNode n candidates seen
    rw [shorthandNodes, shorthandNodes]
    dsimp only
    rw [hseen]
    obtain ⟨hns, hseen'⟩ := mappedAll_shorthandNodes ns candidates
      (shorthandNode ⟨isGlobal, aliases, none⟩ candidates n seen).2
    exact ⟨hns.cons hn, hseen'⟩

end

mutual

theorem mapped_nameNode : ∀ n : Node,
    Mapped (f isGlobal) n (nameNode ⟨isGlobal, aliases, none⟩ n)
      (nameNode ⟨isGlobal, aliases, some f⟩ n)
  | .function start name before arguments after unclosed => by
    rw [nameNode, nameNode]
    cases hr : Role.ofName name with
    | closed =>
      have hu : Role.ofName name ≠ .url := by simp [hr]
      have he : Role.enters name = false := by rw [Role.enters, hr]
      exact mapped_of_not_enters start before arguments after unclosed hu he
    | «scoped» keyword => exact mapped_unwrapScoped start before arguments after unclosed hr
    | url => exact mapped_mapCall start before arguments after unclosed hr
    | steps | plain =>
      have hu : Role.ofName name ≠ .url := by simp [hr]
      have he : Role.enters name := by rw [Role.enters, hr]
      have hs := mappedAll_localizeNames arguments
      exact mapped_entered start before arguments after unclosed hu he hs
  | .word start text => by
    rw [nameNode, nameNode]
    exact mapped_of_not rfl rfl
  | .string .. | .divider .. | .space .. | .comment .. => by
    unfold nameNode
    exact mapped_of_not rfl rfl

theorem mappedAll_localizeNames : ∀ ns : List Node,
    MappedAll (f isGlobal) ns (localizeNames ⟨isGlobal, aliases, none⟩ ns)
      (localizeNames ⟨isGlobal, aliases, some f⟩ ns)
  | [] => by
    rw [localizeNames, localizeNames]
    exact mappedAll_nil
  | n :: ns => by
    rw [localizeNames, localizeNames]
    exact (mappedAll_localizeNames ns).cons (mapped_nameNode n)

end

end Walks

/-! ### Declarations -/

/-- The functions in which urls are looked for. -/
def Route.enters : Route → String → Bool
  | .urls, name => !isSubstitution name
  | .shorthand, name | .names, name => Role.enters name

/-- What is done to the value of a declaration where there is a map of urls. -/
def mappedRoute? (d : Declaration) : Option Route :=
  route? ⟨false, [], some fun _ => id⟩ d

/-- Whether a map that changes no url leaves the declaration alone. If its value
is read because of urls it can be read, and no url that is handed to the map is
written with a character that is escaped. -/
def hasPlainUrls (d : Declaration) : Bool :=
  match mappedRoute? d with
  | none => true
  | some route =>
    match Value.parse d.value with
    | .ok ns => (argumentsOf route.enters ns).all fun n => (escapesOf n).isEmpty
    | .error _ => route ≠ .urls

section Declarations

variable {isGlobal : Bool} {aliases : List String} {f : UrlMap} {d : Declaration}

/-- Neither the scope nor what the map returns matters to which values are read. -/
theorem route?_eq_mappedRoute? : route? ⟨isGlobal, aliases, some f⟩ d = mappedRoute? d :=
  rfl

/-- Without a map, values are not read because of urls. -/
theorem route?_eq_filter :
    route? ⟨isGlobal, aliases, none⟩ d = (mappedRoute? d).filter (· ≠ .urls) := by
  unfold mappedRoute? route?
  by_cases hs : Text.endsInWord "animation" d.prop
  · rw [if_pos hs, if_pos hs]
    rfl
  · rw [if_neg hs, if_neg hs]
    by_cases hn : Text.endsInWord "animation-name" d.prop
    · rw [if_pos hn, if_pos hn]
      rfl
    · rw [if_neg hn, if_neg hn]
      by_cases hu : mentionsUrl d.value <;> simp [hu, Option.filter]

theorem localizeDeclaration_of_none {p : Place} (hr : route? p d = none) :
    (localizeDeclaration p d).result = .ok d := by
  unfold localizeDeclaration
  rw [hr]
  rfl

theorem localizeDeclaration_of_error {p : Place} {route : Route} {e : SyntaxError}
    (hr : route? p d = some route) (he : Value.parse d.value = .error e) :
    (localizeDeclaration p d).result = .error (.ofSyntax e) := by
  unfold localizeDeclaration
  rw [hr]
  simp only [Traced.result_bind, Traced.result_emitAll, Traced.result_ofExcept, he]
  rfl

/-- A map that changes no url leaves the value that is scoped without one exactly
if nothing in its urls is escaped. -/
theorem print_apply_eq_iff {route : Route} (hr : route ≠ .urls) (ns : List Node) :
    Value.print (route.apply ⟨isGlobal, aliases, some fun _ => id⟩ ns) =
        Value.print (route.apply ⟨isGlobal, aliases, none⟩ ns) ↔
      ∀ n ∈ argumentsOf route.enters ns, escapesOf n = [] := by
  have happly : MappedAll id ns (route.apply ⟨isGlobal, aliases, none⟩ ns)
      (route.apply ⟨isGlobal, aliases, some fun _ => id⟩ ns) := by
    cases route with
    | shorthand => exact (mappedAll_shorthandNodes (f := fun _ => id) ns true []).1
    | names => exact mappedAll_localizeNames (f := fun _ => id) ns
    | urls => exact absurd rfl hr
  have henters : route.enters = Role.enters := by
    cases route with
    | urls => exact absurd rfl hr
    | _ => rfl
  rw [happly.map, print_mapCalls_eq_iff, happly.arguments, henters]

/-- **With a map that changes no url, a declaration is scoped as without a map
exactly if its urls are plain.** -/
theorem localizeDeclaration_eq_iff :
    (localizeDeclaration ⟨isGlobal, aliases, some fun _ => id⟩ d).result =
        (localizeDeclaration ⟨isGlobal, aliases, none⟩ d).result ↔
      hasPlainUrls d := by
  have hwith : route? ⟨isGlobal, aliases, some fun _ => id⟩ d = mappedRoute? d :=
    route?_eq_mappedRoute?
  have hwithout : route? ⟨isGlobal, aliases, none⟩ d = (mappedRoute? d).filter (· ≠ .urls) :=
    route?_eq_filter
  have hvalue : ∀ v w : String,
      (Except.ok { d with value := v } : Except Error Declaration) = .ok { d with value := w } ↔
        v = w := by
    intro v w
    simp
  rw [hasPlainUrls]
  cases hr : mappedRoute? d with
  | none =>
    rw [hr] at hwith hwithout
    rw [localizeDeclaration_of_none hwith, localizeDeclaration_of_none hwithout]
    simp
  | some route =>
    rw [hr] at hwith hwithout
    dsimp only
    by_cases hu : route = .urls
    · subst hu
      rw [localizeDeclaration_of_none hwithout]
      cases hns : Value.parse d.value with
      | error e =>
        rw [localizeDeclaration_of_error hwith hns]
        simp
      | ok ns =>
        have hself : (Except.ok d : Except Error Declaration) =
            .ok { d with value := Value.print ns } := by
          rw [Value.print_parseWithin hns]
        have happly : Route.urls.apply ⟨isGlobal, aliases, some fun _ => id⟩ ns =
            mapCalls Route.urls.enters id ns := mapUrls_eq_mapCalls ns
        rw [localizeDeclaration_of_route hwith hns, happly, hself, hvalue, print_mapCalls_eq_iff]
        simp
    · have hkept : route? ⟨isGlobal, aliases, none⟩ d = some route := by
        rw [hwithout]
        simp [Option.filter, hu]
      cases hns : Value.parse d.value with
      | error e =>
        rw [localizeDeclaration_of_error hwith hns, localizeDeclaration_of_error hkept hns]
        simp [hu]
      | ok ns =>
        rw [localizeDeclaration_of_route hwith hns, localizeDeclaration_of_route hkept hns,
          hvalue, print_apply_eq_iff hu]
        simp

end Declarations

/-! ### The passes -/

section Passes

variable {mode : Mode} {aliases : List String} {around : List Frame}

theorem mem_placedAmong_of_mem {ns : List Sheet.Node} {d : Declaration}
    (h : d ∈ Sheet.declarations ns) : ⟨around, d⟩ ∈ placedAmong around ns := by
  induction ns with
  | nil => cases h
  | cons n ns ih =>
    rw [placedAmong, List.mem_append]
    cases n with
    | declaration d' =>
      rw [Sheet.declarations, List.mem_cons] at h
      rcases h with rfl | h
      · rw [placedIn]
        exact .inl (List.mem_singleton.mpr rfl)
      · exact .inr (ih h)
    | _ => exact .inr (ih h)

theorem mem_placedAmong_of_mem_placedIn {ns : List Sheet.Node} {n : Sheet.Node} {a : Placed}
    (hn : n ∈ ns) (ha : a ∈ placedIn around n) : a ∈ placedAmong around ns := by
  rw [placedAmong_eq_flatMap, List.mem_flatMap]
  exact ⟨n, hn, ha⟩

theorem result_localizeDirect {ns : List Sheet.Node} (isGlobal : Bool)
    (h : ∀ d ∈ Sheet.declarations ns, hasPlainUrls d) :
    (localizeDirect ⟨isGlobal, aliases, some fun _ => id⟩ ns).result =
      (localizeDirect ⟨isGlobal, aliases, none⟩ ns).result := by
  apply Traced.result_mapM_congr
  intro d hd
  exact localizeDeclaration_eq_iff.mpr (h d hd)

theorem result_localizeNode (isGlobal : Bool) (n : Sheet.Node)
    (h : ∀ a ∈ placedIn around n, hasPlainUrls a.declaration) :
    (localizeNode ⟨isGlobal, aliases, some fun _ => id⟩ n).result =
      (localizeNode ⟨isGlobal, aliases, none⟩ n).result := by
  induction n using Sheet.Node.induction generalizing around with
  | rule head body after ih | atBlock head body after ih =>
    rw [placedIn] at h
    have hbody := Traced.result_mapM_congr fun n hn =>
      ih n hn fun a ha => h a (mem_placedAmong_of_mem_placedIn hn ha)
    rw [localizeNode, localizeNode, localizeNested_eq_mapM, localizeNested_eq_mapM]
    exact Traced.result_bind_congr hbody fun _ _ => rfl
  | declaration d =>
    have hd : hasPlainUrls d := h ⟨around, d⟩ (by simp [placedIn])
    rw [localizeNode, localizeNode]
    exact Traced.result_bind_congr (localizeDeclaration_eq_iff.mpr hd) fun _ _ => rfl
  | atStatement head semicolon => rw [localizeNode, localizeNode]
  | comment c => rw [localizeNode, localizeNode]

/-- The frames around a node are around every declaration in it. -/
theorem suffix_of_mem_placedIn {n : Sheet.Node} {a : Placed} (ha : a ∈ placedIn around n) :
    around <:+ a.around := by
  induction n using Sheet.Node.induction generalizing around with
  | rule head body after ih | atBlock head body after ih =>
    rw [placedIn, placedAmong_eq_flatMap, List.mem_flatMap] at ha
    obtain ⟨n, hn, ha⟩ := ha
    exact (List.suffix_cons _ _).trans (ih n hn ha)
  | declaration d =>
    rw [placedIn, List.mem_singleton] at ha
    have haround : a.around = around := congrArg Placed.around ha
    exact haround ▸ List.suffix_rfl
  | atStatement head semicolon | comment c =>
    rw [placedIn] at ha
    cases ha

theorem around_ne_nil {ns : List Sheet.Node} {a : Placed} {frame : Frame}
    (ha : a ∈ placedAmong (frame :: around) ns) : a.around ≠ [] := by
  rw [placedAmong_eq_flatMap, List.mem_flatMap] at ha
  obtain ⟨n, -, ha⟩ := ha
  intro hnil
  have hsuffix := suffix_of_mem_placedIn ha
  rw [hnil] at hsuffix
  exact absurd (List.suffix_nil.mp hsuffix) (by simp)

/-- What the first pass does at a node it does without the map as well. -/
theorem result_atRuleNode (n : Sheet.Node)
    (h : ∀ a ∈ placedIn around n, a.around ≠ [] → hasPlainUrls a.declaration) :
    (atRuleNode ⟨⟨mode, some fun _ => id⟩, aliases⟩ n).result =
      (atRuleNode ⟨⟨mode, none⟩, aliases⟩ n).result := by
  induction n using Sheet.Node.induction generalizing around with
  | rule head body after ih =>
    rw [placedIn] at h
    have hbody := Traced.result_mapM_congr fun n hn =>
      ih n hn fun a ha => h a (mem_placedAmong_of_mem_placedIn hn ha)
    rw [atRuleNode, atRuleNode, atRulePass_eq_mapM, atRulePass_eq_mapM]
    exact Traced.result_bind_congr hbody fun _ _ => rfl
  | atBlock head body after ih =>
    rw [placedIn] at h
    have hplain : ∀ a ∈ placedAmong (.atRule head.name head.params :: around) body,
        hasPlainUrls a.declaration := fun a ha => h a ha (around_ne_nil ha)
    have hbody := Traced.result_mapM_congr fun n hn =>
      ih n hn fun a ha => h a (mem_placedAmong_of_mem_placedIn hn ha)
    have hnested : ∀ isGlobal,
        (body.mapM (localizeNode ⟨isGlobal, aliases, some fun _ => id⟩)).result =
          (body.mapM (localizeNode ⟨isGlobal, aliases, none⟩)).result := fun isGlobal =>
      Traced.result_mapM_congr fun n hn => result_localizeNode isGlobal n fun a ha =>
        hplain a (mem_placedAmong_of_mem_placedIn hn ha)
    have hdirect : ∀ isGlobal, (localizeDirect ⟨isGlobal, aliases, some fun _ => id⟩ body).result =
        (localizeDirect ⟨isGlobal, aliases, none⟩ body).result := fun isGlobal =>
      result_localizeDirect isGlobal fun d hd => hplain ⟨_, d⟩ (mem_placedAmong_of_mem hd)
    rw [atRuleNode, atRuleNode]
    by_cases hk : isKeyframes head.name
    · rw [if_pos hk, if_pos hk]
      refine Traced.result_bind_congr rfl fun headAndScope _ => ?_
      obtain ⟨head', isGlobal⟩ := headAndScope
      dsimp only
      rw [localizeNested_eq_mapM, localizeNested_eq_mapM]
      exact Traced.result_bind_congr (hnested isGlobal) fun _ _ => rfl
    · rw [if_neg hk, if_neg hk, atRulePass_eq_mapM, atRulePass_eq_mapM]
      exact Traced.result_bind_congr rfl fun _ _ =>
        Traced.result_bind_congr (hdirect mode.isGlobal) fun _ _ =>
          Traced.result_bind_congr hbody fun _ _ => rfl
  | atStatement head semicolon =>
    rw [atRuleNode, atRuleNode]
    rfl
  | declaration d => rfl
  | comment c => rfl

/-- Selectors are resolved without regard to the map. -/
theorem resolveText_eq (parentIsPure : Bool) (selector : String) (impure : Error) :
    resolveText ⟨⟨mode, some fun _ => id⟩, aliases⟩ parentIsPure selector impure =
      resolveText ⟨⟨mode, none⟩, aliases⟩ parentIsPure selector impure := by
  unfold resolveText
  rfl

/-- What the second pass does at a node it does without the map as well. -/
theorem result_ruleNode {inKeyframes : Bool} (parentIsPure : Bool) (n : Sheet.Node)
    (hs : inStep around = false) (hk : inKeyframes = around.head?.any Frame.isKeyframes)
    (h : ∀ a ∈ placedIn around n, (Job.secondScope? ⟨⟨mode, none⟩, aliases⟩ a.around).isSome →
      hasPlainUrls a.declaration) :
    (ruleNode ⟨⟨mode, some fun _ => id⟩, aliases⟩ inKeyframes parentIsPure n).result =
      (ruleNode ⟨⟨mode, none⟩, aliases⟩ inKeyframes parentIsPure n).result := by
  induction n using Sheet.Node.induction generalizing around inKeyframes parentIsPure with
  | rule head body after ih =>
    rw [placedIn] at h
    rw [ruleNode, ruleNode]
    by_cases hin : inKeyframes
    · rw [if_pos hin, if_pos hin]
    · have hs' : inStep (.rule head.selector :: around) = false := by
        rw [inStep, hs, ← hk, Bool.or_false]
        simpa using hin
      have hvisited : (Job.secondScope? ⟨⟨mode, none⟩, aliases⟩
          (.rule head.selector :: around)).isSome := by
        rw [Job.secondScope?, hs']
        rfl
      have hdirect : ∀ isGlobal,
          (localizeDirect ⟨isGlobal, aliases, some fun _ => id⟩ body).result =
            (localizeDirect ⟨isGlobal, aliases, none⟩ body).result := fun isGlobal =>
        result_localizeDirect isGlobal fun d hd => h ⟨_, d⟩ (mem_placedAmong_of_mem hd) hvisited
      have hbody : ∀ isPure,
          (body.mapM (ruleNode ⟨⟨mode, some fun _ => id⟩, aliases⟩ false isPure)).result =
            (body.mapM (ruleNode ⟨⟨mode, none⟩, aliases⟩ false isPure)).result := fun isPure =>
        Traced.result_mapM_congr fun n hn =>
          ih n hn isPure hs' rfl fun a ha => h a (mem_placedAmong_of_mem_placedIn hn ha)
      rw [if_neg hin, if_neg hin, resolveText_eq]
      refine Traced.result_bind_congr rfl fun resolved _ => ?_
      obtain ⟨selector, r⟩ := resolved
      dsimp only [Job.place]
      refine Traced.result_bind_congr rfl fun _ _ => ?_
      refine Traced.result_bind_congr (hdirect r.isGlobal) fun _ _ => ?_
      rw [rulePass_eq_mapM, rulePass_eq_mapM]
      exact Traced.result_bind_congr (hbody _) fun _ _ => rfl
  | atBlock head body after ih =>
    rw [placedIn] at h
    have hs' : inStep (.atRule head.name head.params :: around) = false := hs
    have hbody : (body.mapM (ruleNode ⟨⟨mode, some fun _ => id⟩, aliases⟩
          (isKeyframes head.name) parentIsPure)).result =
        (body.mapM (ruleNode ⟨⟨mode, none⟩, aliases⟩
          (isKeyframes head.name) parentIsPure)).result :=
      Traced.result_mapM_congr fun n hn => ih n hn parentIsPure hs' (head?_atRule ..) fun a ha =>
        h a (mem_placedAmong_of_mem_placedIn hn ha)
    rw [ruleNode, ruleNode, rulePass_eq_mapM, rulePass_eq_mapM]
    exact Traced.result_bind_congr hbody fun _ _ => rfl
  | atStatement head semicolon => rfl
  | declaration d => rfl
  | comment c => rfl

end Passes

/-! ### Sheets -/

/-- A declaration in the forms in which the passes scope it: as it stands in the
sheet, and as the first pass leaves it if the second scopes it once more. One
outside of blocks is not scoped. -/
def Job.visited (job : Job) (a : Placed) : List Declaration :=
  if a.around = [] then []
  else if isRevisited a.around then
    match (localizeDeclaration (job.place (job.scope a.around)) a.declaration).result with
    | .ok d => [a.declaration, d]
    | .error _ => [a.declaration]
  else [a.declaration]

theorem mem_visited {job : Job} {a : Placed} (h : a.around ≠ []) :
    a.declaration ∈ job.visited a := by
  unfold Job.visited
  rw [if_neg h]
  repeat' split
  all_goals simp

/-- What the second pass finds where it scopes a declaration. -/
theorem mem_visited_of_firstVisit {job : Job} {a b : Placed} {us : Urls}
    (h : FirstVisit job a b us) (hs : (job.secondScope? b.around).isSome) :
    b.declaration ∈ job.visited a := by
  have hsecond : (job.secondScope? a.around).isSome := by
    rw [← secondScope?_blank, h.around, secondScope?_blank]
    exact hs
  have hne : a.around ≠ [] := by
    intro hnil
    rw [hnil] at hsecond
    cases hsecond
  have hvisit := h.visit
  by_cases hr : isRevisited a.around
  · rcases ha : a.around with _ | ⟨selector | ⟨name, params⟩, outer⟩
    · exact absurd ha hne
    · rw [ha] at hr
      have hfirst := (scopes_of_isRevisited job hr).1
      rw [← ha] at hr hfirst
      rw [hfirst] at hvisit
      rw [Job.visited, if_neg hne, if_pos hr, hvisit.result]
      simp
    · rw [ha] at hr
      cases hr
  · rcases scopes_of_not_isRevisited job hne (by simpa using hr) with ⟨-, hnone⟩ | ⟨hnone, -⟩
    · rw [hnone] at hsecond
      cases hsecond
    · rw [hnone] at hvisit
      rw [hvisit.1]
      exact mem_visited hne

/-- Where all declarations are plain, a sheet is scoped as without the map. -/
theorem result_process {mode : Mode} {sheet : Sheet}
    (h : ∀ a ∈ placedAmong [] sheet.nodes,
      ∀ d ∈ Job.visited ⟨⟨mode, none⟩, importedNames sheet.nodes⟩ a, hasPlainUrls d) :
    (process ⟨mode, some fun _ => id⟩ sheet).result = (process ⟨mode, none⟩ sheet).result := by
  have hfirst : (sheet.nodes.mapM
        (atRuleNode ⟨⟨mode, some fun _ => id⟩, importedNames sheet.nodes⟩)).result =
      (sheet.nodes.mapM (atRuleNode ⟨⟨mode, none⟩, importedNames sheet.nodes⟩)).result :=
    Traced.result_mapM_congr fun n hn => result_atRuleNode n fun a ha hne =>
      h a (mem_placedAmong_of_mem_placedIn hn ha) _ (mem_visited hne)
  unfold process
  dsimp only
  rw [atRulePass_eq_mapM, atRulePass_eq_mapM]
  refine Traced.result_bind_congr hfirst fun nodes hnodes => ?_
  obtain ⟨us, heach⟩ : ∃ us, Each (FirstVisit ⟨⟨mode, none⟩, importedNames sheet.nodes⟩)
      (placedAmong [] sheet.nodes) (placedAmong [] nodes) us := by
    rw [placedAmong_eq_flatMap, placedAmong_eq_flatMap]
    exact ⟨_, (Each.of_mapM ⟨hnodes, rfl⟩).flatMap fun n _ n' us hrun =>
      each_of_atRun rfl (fun _ _ => rfl) rfl hrun⟩
  rw [rulePass_eq_mapM, rulePass_eq_mapM]
  refine Traced.result_bind_congr ?_ fun _ _ => rfl
  refine Traced.result_mapM_congr fun n hn => ?_
  have hstep : inStep [] = false := rfl
  refine result_ruleNode false n hstep rfl fun b hb hs => ?_
  obtain ⟨a, ha, us, hab⟩ := heach.exists_of_mem_right (mem_placedAmong_of_mem_placedIn hn hb)
  exact h a ha _ (mem_visited_of_firstVisit hab hs)

/-- **A map that changes no url makes no difference to a sheet whose declarations
are plain,** whether the sheet can be scoped or not. -/
theorem transform_eq_of_hasPlainUrls {mode : Mode} {f : UrlMap} {source : String}
    (hf : ∀ isGlobal url, f isGlobal url = url)
    (h : ∀ sheet, (Sheet.parse source).result = .ok sheet →
      ∀ a ∈ placedAmong [] sheet.nodes,
        ∀ d ∈ Job.visited ⟨⟨mode, none⟩, importedNames sheet.nodes⟩ a, hasPlainUrls d) :
    (transform ⟨mode, some f⟩ source).result = (transform ⟨mode, none⟩ source).result := by
  obtain rfl : f = fun _ => id := funext fun isGlobal => funext fun url => hf isGlobal url
  unfold transform
  refine Traced.result_bind_congr rfl fun sheet hsheet => ?_
  have hparse : (Sheet.parse source).result = .ok sheet := by
    rwa [Traced.result_mapError, mapError_eq_ok] at hsheet
  exact Traced.result_bind_congr (result_process (h sheet hparse)) fun _ _ => rfl

/-- A sheet with a url in an animation that is scoped twice, and with one that
has an escape, but stands in a substitution. -/
def urlSample : String :=
  "@keyframes k\x7b@m\x7b.a\x7banimation:k url('u')\x7d\x7d\x7d" ++
    ".b\x7bc:url( d )var(e,url(\\66))\x7d"

theorem transform_urlSample :
    (∀ sheet, (Sheet.parse urlSample).result = .ok sheet → ∀ a ∈ placedAmong [] sheet.nodes,
      ∀ d ∈ Job.visited ⟨⟨.pure, none⟩, importedNames sheet.nodes⟩ a, hasPlainUrls d) ∧
    (transform ⟨.pure, some fun _ url => url⟩ urlSample).result =
      (transform ⟨.pure, none⟩ urlSample).result := by
  have hplain : ∀ sheet, (Sheet.parse urlSample).result = .ok sheet →
      ∀ a ∈ placedAmong [] sheet.nodes,
        ∀ d ∈ Job.visited ⟨⟨.pure, none⟩, importedNames sheet.nodes⟩ a, hasPlainUrls d := by
    have hall : (match (Sheet.parse urlSample).result with
        | .ok sheet => (placedAmong [] sheet.nodes).all fun a =>
            (Job.visited ⟨⟨.pure, none⟩, importedNames sheet.nodes⟩ a).all hasPlainUrls
        | .error _ => false) = true := by
      decide +kernel
    intro sheet hsheet
    rw [hsheet] at hall
    simpa only [List.all_eq_true] using hall
  exact ⟨hplain, transform_eq_of_hasPlainUrls (fun _ _ => rfl) hplain⟩

/-- An escaped quote is escaped once more by a map that changes no url. -/
theorem escaped_url_changed :
    (transform ⟨.localByDefault, none⟩ ".a\x7bb:url(\"c\\\"\")\x7d").result =
        .ok ":local(.a)\x7bb:url(\"c\\\"\")\x7d" ∧
      (transform ⟨.localByDefault, some fun _ url => url⟩
          ".a\x7bb:url(\"c\\\"\")\x7d").result =
        .ok ":local(.a)\x7bb:url(\"c\\\\\\\"\")\x7d" := by
  constructor <;> decide +kernel

end Scope
end StyleScope
