import GoHttpd.Basic
import GoHttpd.Text
import GoHttpd.Regexp
import GoHttpd.Route.Cond
import GoHttpd.Route.Route
import GoHttpd.Route.Router
import GoHttpd.Route.Match
import GoHttpd.Route.Clause
import GoHttpd.Auth.Encoding
import GoHttpd.Auth.RoundTrip
import GoHttpd.Auth.Passwords
import GoHttpd.Session.Storage
import GoHttpd.Session.Session
import GoHttpd.Transaction
import GoHttpd.Util
import GoHttpd.Path
import GoHttpd.Net
import GoHttpd.Server
import GoHttpd.Regexp.Run
import GoHttpd.Regexp.Quote
import GoHttpd.Route.Assemble
import GoHttpd.Route.Segments
import GoHttpd.Route.Methods
import GoHttpd.Dispatch
import GoHttpd.Session.Http
import GoHttpd.Respond
