/-
One key per delivery target (`apps/subscriptions/targets.py`).

* `normpath` — the function of `posixpath` the keys rest on, beside `unquote` of
  `urllib.parse`;
* `emailKey`, `pathKey`, `webhookKey`, `targetKey` — the keys.

`targetKey` fails only where the code raises: a canonical URL that `urlsplit`
refuses raises a plain `ValueError`, which `webhook_key` does not catch.
-/
import Newsforge.Percent
import Newsforge.SafeHttp

open PyText UrlParse SafeHttp

namespace Targets

/-! ### Paths -/

/-- `re.sub(r";[^/]*", "", path)`; `inside` says that a `;` was seen. -/
def dropParams (inside : Bool) : Text → Text
  | [] => []
  | '/' :: s => '/' :: dropParams false s
  | ';' :: s => dropParams true s
  | c :: s => if inside then dropParams true s else c :: dropParams false s

/-- `re.sub(r"/{2,}", "/", path)`. -/
def collapseSlashes : Text → Text
  | [] => []
  | c :: s => if c = '/' ∧ s.head? = some '/' then collapseSlashes s else c :: collapseSlashes s

/-- One step of `posixpath.normpath`, on the components kept so far. -/
def normStep (rooted : Bool) (kept : List Text) (comp : Text) : List Text :=
  if comp = [] ∨ comp = ['.'] then kept
  else if comp ≠ ['.', '.'] ∨ (!rooted && kept.isEmpty) ∨ kept.getLast? = some ['.', '.'] then
    kept ++ [comp]
  else kept.dropLast

/-- `posixpath.normpath`: a root of exactly two slashes is kept. -/
def normpath (path : Text) : Text :=
  let root : Text :=
    if path.head? ≠ some '/' then []
    else if startsWith ['/', '/'] path && !startsWith ['/', '/', '/'] path then ['/', '/']
    else ['/']
  let comps := (split '/' path).foldl (normStep !root.isEmpty) []
  let normal := root ++ join '/' comps
  if normal.isEmpty then ['.'] else normal

/-- `_path_key`. -/
def pathKey (u : UnicodeTables) (path : Text) : Text :=
  let path := replaceChar '\\' '/' (Percent.unquote path)
  let path := dropParams false path
  lower u (normpath (collapseSlashes ('/' :: path)))

/-! ### Keys -/

/-- `re.sub(r"\\(.)", r"\1", s)`. -/
def unescape : Text → Text
  | '\\' :: c :: s => if c = '\n' then '\\' :: c :: unescape s else c :: unescape s
  | c :: s => c :: unescape s
  | [] => []

/-- `_DOTLESS_DOMAINS`. -/
def dotlessDomain (domain : Text) : Option Text :=
  if domain = "gmail.com".toList ∨ domain = "googlemail.com".toList then some "gmail.com".toList
  else none

/-- `email_key`. -/
def emailKey (t : HostTables) (address : Text) : Text :=
  let at? := rpartition '@' (strip isSpace address)
  let localPart := at?.1
  let localPart :=
    if 2 ≤ localPart.length ∧ localPart.head? = some '"' ∧ localPart.getLast? = some '"' then
      unescape (localPart.tail.dropLast)
    else localPart
  let localPart := (partition '+' (lower t.unicode localPart)).1
  let domain := match asciiHost t (strip (fun c => c == '[' || c == ']') at?.2.2) with
    | .ok host => host
    | .error _ => lower t.unicode at?.2.2
  match dotlessDomain domain with
  | some merged => "mailto:".toList ++ removeChar '.' localPart ++ '@' :: merged
  | none => "mailto:".toList ++ localPart ++ '@' :: domain

/-- `webhook_key`. -/
def webhookKey (t : HostTables) (url : Text) : Except Text Text :=
  match canonicalUrl t url with
  | .error _ => .ok (strip isSpace url)
  | .ok canonical => do
    let parts ← urlsplit t.unicode canonical
    return parts.scheme ++ "://".toList ++ parts.netloc ++ pathKey t.unicode parts.path

/-- `Subscription.Delivery`. -/
inductive Delivery
  | webhook
  | email
  deriving DecidableEq, Repr

/-- `target_key`. -/
def targetKey (t : HostTables) (delivery : Delivery) (target : Option Text) : Except Text Text :=
  match target with
  | none => .ok []
  | some s =>
    if s.isEmpty then .ok []
    else match delivery with
      | .email => .ok (emailKey t s)
      | .webhook => webhookKey t s

example : pathKey ⟨id, id, id, id⟩ "/x/%2e./A%5Cb;v=1//c/".toList = "/a/b/c".toList := by decide

end Targets
