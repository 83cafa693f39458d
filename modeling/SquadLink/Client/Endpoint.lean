import Mathlib.Data.List.Basic
import SquadLink.Lib.Text

/-! The endpoint policy of the signaling client (`companion-core/src/signaling.rs`): the host of a URL, and
    the URLs a connection may be opened to. -/

namespace SquadLink

/-- The lowercased host of a ws(s):// URL; none if it is malformed. -/
def urlHost (url : String) : Option String :=
  (Text.splitOnce "://".toList url.toList).bind fun (_, rest) =>
    let authority := rest.takeWhile fun c => c != '/' && c != '?' && c != '#'
    let hostport := authority.rtakeWhile fun c => c != '@'  -- drop userinfo
    let host := match hostport with
      | '[' :: after => after.takeWhile fun c => c != ']'  -- [ipv6]
      | _ => hostport.takeWhile fun c => c != ':'  -- host:port
    if host.isEmpty then none else some (String.ofList (host.map Char.toLower))

/-- The host of the URL is exactly a loopback address. -/
def isLoopback (url : String) : Bool :=
  match urlHost url with
  | some "localhost" | some "127.0.0.1" | some "::1" => true
  | _ => false

/-- Acceptable signaling endpoints: `wss://` to any valid host, or `ws://` only to a loopback host. -/
def serverUrlOk (url : String) : Bool :=
  let u := Text.trim url
  if "wss://".toList.isPrefixOf u.toList then !(u.toList.drop "wss://".length).isEmpty && (urlHost u).isSome
  else if "ws://".toList.isPrefixOf u.toList then isLoopback u
  else false

@[simp] theorem serverUrlOk_trim (url : String) : serverUrlOk (Text.trim url) = serverUrlOk url := by
  unfold serverUrlOk
  rw [Text.trim_trim]

end SquadLink
