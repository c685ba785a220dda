import UldrenLoom.Tabular.MergeCells
import UldrenLoom.Vcs.ReplayAgree
import UldrenLoom.Vcs.StateRoundTrip
import UldrenLoom.Store.PageKind
import UldrenLoom.Fs.Move
import UldrenLoom.Ledger.Consistency
import UldrenLoom.Overlay.Isolation
import UldrenLoom.Lanes.Safety
import UldrenLoom.Vcs.ObjectCodec
import UldrenLoom.Rrule.Timezone
import UldrenLoom.Tabular.DecimalOrder
import UldrenLoom.Drive.Uploads
import UldrenLoom.Keys.Wraps
import UldrenLoom.Watch.Replay
import UldrenLoom.Vcs.MergeContinue
import UldrenLoom.Store.GroupCommit
import UldrenLoom.Kv.Range
import UldrenLoom.Rrule.Window
import UldrenLoom.Substrate.Body
